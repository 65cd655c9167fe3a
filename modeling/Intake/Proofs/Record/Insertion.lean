import Intake.Proofs.Record.Carries

/-!
# Members that no field asks for

A member whose key is not known can be put between any two members of a record, of a premium time or of a
like, in front of the first and behind the last, and the account is the same. A place for it is said in
the grammar of records: the text in front of it and the text behind it make up an object. Nothing is asked
of the record but that the decoder accepts it.

The proof compares two texts along the grammar. What is carried from the one to the other is each value by
itself, and in the three kinds of object the new members leave no trace.
-/

namespace Intake.Record

/-! ### Places -/

/-- The objects that have members of their own. -/
inductive Owner where
  | record
  | premium
  | like

/-- The keys that mean something to an object. -/
def Owner.Knows : Owner → Bytes → Prop
  | record, key => ∃ field : Field, key = field.key
  | premium, key => ∃ e : End, key = e.key
  | like, key => key = Scan.likeIdKey ∨ key = Scan.likeTimestampKey

/-- JSON text under a key that means nothing. -/
def Unknown (options : Options) (owner : Owner) (key value : Bytes) : Prop :=
  ¬ owner.Knows key ∧ Json .value (nestingLimit options.maxNesting) value

/-- A member that is not known. -/
def Spare (options : Options) (owner : Owner) (bs : Bytes) : Prop :=
  ∃ key, Entry (Unknown options owner) key bs

/-- A member that is not known, with whitespace around it. -/
def NewMember (options : Options) (owner : Owner) : Bytes → Prop := Scan.Padded (Spare options owner)

section Places

variable {α : Type}

/-- What may stand in front of an item in its row. -/
inductive Leading (Q : α → Bytes → Prop) : Bytes → Prop
  | nil : Leading Q []
  | items {items : List α} {row : Bytes} (h : Items Q items row) : Leading Q (row ++ [Byte.comma])

/-- What may stand behind an item in its row. -/
inductive Trailing (Q : α → Bytes → Prop) : Bytes → Prop
  | nil : Trailing Q []
  | items {items : List α} {row : Bytes} (h : Items Q items row) : Trailing Q (Byte.comma :: row)

/-- What stands in front of an item of a list and behind it. -/
inductive Around (bracket : Bracket) (Q : α → Bytes → Prop) : Bytes → Bytes → Prop
  | mk {leading before after trailing : Bytes} (hleading : Leading Q leading) (hbefore : Gap before)
      (hafter : Gap after) (htrailing : Trailing Q trailing) :
      Around bracket Q (bracket.opening :: (leading ++ before)) (after ++ (trailing ++ [bracket.closing]))

/-- What stands in front of the value of a member. -/
inductive Label (key : Bytes) : Bytes → Prop
  | mk {before after : Bytes} (hbefore : Gap before) (hafter : Gap after) :
      Label key (Byte.quote :: (key ++ Byte.quote :: (before ++ Byte.colon :: after)))

/-- An object whose values are in `V`, cut where the member can be put, and what has to be put there: a
comma is due between two members. -/
inductive Slot (V : Bytes → Bytes → Prop) (member : Bytes) : Bytes → Bytes → Bytes → Prop
  | alone {gap : Bytes} (h : Gap gap) :
      Slot V member (Byte.openBrace :: gap) member [Byte.closeBrace]
  | before {leading row : Bytes} {keys : List Bytes} (hleading : Leading (Entry V) leading)
      (hrow : Items (Entry V) keys row) :
      Slot V member (Byte.openBrace :: leading) (member ++ [Byte.comma]) (row ++ [Byte.closeBrace])
  | behind {row : Bytes} {keys : List Bytes} (hrow : Items (Entry V) keys row) :
      Slot V member (Byte.openBrace :: row) (Byte.comma :: member) [Byte.closeBrace]

/-- The object of a record, cut where a member can be put into one of its objects. -/
inductive Site (options : Options) (member : Bytes) : Owner → Bytes → Bytes → Bytes → Prop
  | record {front inserted back : Bytes}
      (h : Slot (ValueText options) member front inserted back) :
      Site options member .record front inserted back
  | premium {outer label front inserted back outer' : Bytes}
      (houter : Around .brace (Entry (ValueText options)) outer outer')
      (hlabel : Label Field.premium.key label)
      (h : Slot (PremiumText options) member front inserted back) :
      Site options member .premium (outer ++ (label ++ front)) inserted (back ++ outer')
  | like {outer label array front inserted back array' outer' : Bytes}
      (houter : Around .brace (Entry (ValueText options)) outer outer')
      (hlabel : Label Field.likes.key label) (harray : Around .square (WholeLike options) array array')
      (h : Slot (LikeText options) member front inserted back) :
      Site options member .like (outer ++ (label ++ (array ++ front))) inserted
        (back ++ (array' ++ outer'))

end Places

namespace Scan

variable {α σ : Type} {F : Bytes → Prop}

/-! ### What is carried -/

section Carried

variable {options : Options}

theorem Unknown.solid {owner : Owner} {key value : Bytes} (h : Unknown options owner key value) :
    Solid value := (loose_of_json h.2).solid

theorem Spare.solid {owner : Owner} {bs : Bytes} (h : Spare options owner bs) : Solid bs :=
  h.elim fun _ => solid_of_entry

theorem skims_spare {owner : Owner} {member : Bytes → Scan σ Unit}
    (h : ∀ key, ¬ owner.Knows key → Skims (Json .value (nestingLimit options.maxNesting)) (member key)) :
    Skims (Spare options owner) (keyed member) :=
  skims_keyed (fun key _ _ _ _ hunknown => h key hunknown.1 hunknown.2) Unknown.solid

theorem skims_skipValue :
    Skims (Json .value (nestingLimit options.maxNesting)) (skipValue options : Scan σ Unit) := by
  intro bs rest s c hjson hc hrest
  have hskip : Record.skipValue options.maxNesting c = _ :=
    skipValue_of_skippedText (loose_of_json hjson) hc hrest
  rw [skipValue, run_read, hskip]

variable (options)

/-- The objects of a premium time that differ in spare members. -/
abbrev PremiumPair : Bytes → Bytes → Prop :=
  Lists .brace (Keyed fun key => Same (PremiumText options key)) (Spare options .premium)

/-- The objects of a like that differ in spare members. -/
abbrev LikePair : Bytes → Bytes → Prop :=
  Lists .brace (Keyed fun key => Same (LikeText options key)) (Spare options .like)

abbrev LikesPair : Bytes → Bytes → Prop := Lists .square (LikePair options) fun _ => False

/-- Values of a field that differ in spare members. -/
inductive FieldPair : Field → Bytes → Bytes → Prop
  | same {field : Field} {bs : Bytes} (h : FieldText options field bs) : FieldPair field bs bs
  | premium {bs bs' : Bytes} (h : PremiumPair options bs bs') : FieldPair .premium bs bs'
  | likes {bs bs' : Bytes} (h : LikesPair options bs bs') : FieldPair .likes bs bs'

inductive ValuePair (key bs bs' : Bytes) : Prop
  | field (field : Field) (hkey : key = field.key) (h : FieldPair options field bs bs')
  | other (hkey : ∀ field : Field, key ≠ field.key) (h : Same (SkippedText options) bs bs')

/-- The objects of a record that differ in spare members. -/
abbrev RecordPair : Bytes → Bytes → Prop :=
  Lists .brace (Keyed (ValuePair options)) (Spare options .record)

variable {options} {bs bs' : Bytes}

theorem Lists.solid {bracket : Bracket} {R : Bytes → Bytes → Prop} {N : Bytes → Prop}
    (h : Lists bracket R N bs bs') : Solid bs ∧ Solid bs' := by
  have hopening (tail : Bytes) : Solid (bracket.opening :: tail) :=
    ⟨_, tail, rfl, by cases bracket <;> decide, by cases bracket <;> decide⟩
  cases h <;> exact ⟨hopening _, hopening _⟩

theorem solid_of_fieldText {field : Field} (h : FieldText options field bs) : Solid bs := by
  cases field with
  | id | birth | joined => exact solid_of_numeral h.choose_spec
  | sex | status | text => exact solid_of_quotes h.choose_spec
  | premium | interests | likes => exact solid_of_listing h.choose_spec

theorem ValuePair.solid {key : Bytes} (h : ValuePair options key bs bs') : Solid bs ∧ Solid bs' := by
  cases h with
  | field field _ h =>
      cases h with
      | same h => exact ⟨solid_of_fieldText h, solid_of_fieldText h⟩
      | premium h => exact h.solid
      | likes h => exact h.solid
  | other _ h =>
      obtain ⟨rfl, h⟩ := h
      exact ⟨h.solid, h.solid⟩

theorem solid_of_premiumText {key : Bytes} (h : PremiumText options key bs) : Solid bs := by
  cases h with
  | time _ _ h => exact solid_of_numeral h.choose_spec
  | other _ h => exact h.solid

theorem solid_of_likeText {key : Bytes} (h : LikeText options key bs) : Solid bs := by
  cases h with
  | id _ h => exact solid_of_numeral h.choose_spec
  | timestamp _ h => exact solid_of_numeral h.choose_spec
  | other _ _ h => exact h.solid

theorem Same.solid {L : Bytes → Prop} (h : Same L bs bs') (hsolid : ∀ {bs}, L bs → Solid bs) :
    Solid bs ∧ Solid bs' := by
  obtain ⟨rfl, h⟩ := h
  exact ⟨hsolid h, hsolid h⟩

/-! ### The objects of a premium time and of a like -/

theorem carries_premiumMember (key : Bytes) :
    Carries Fenced (Same (PremiumText options key)) (premiumMember options key)
      (premiumMember options key) := by
  unfold premiumMember
  split
  next hstart =>
    refine (carries_timestamp.bind_still fun _ => still_modify _).mono fun ⟨hsame, h⟩ => ⟨hsame, ?_⟩
    cases h with
    | time _ _ h => exact h
    | other hkey => exact absurd hstart (hkey .start)
  next hstart =>
  split
  next hfinish =>
    refine (carries_timestamp.bind_still fun _ => still_modify _).mono fun ⟨hsame, h⟩ => ⟨hsame, ?_⟩
    cases h with
    | time _ _ h => exact h
    | other hkey => exact absurd hfinish (hkey .finish)
  next hfinish =>
    refine (carries_skipValue options).mono fun ⟨hsame, h⟩ => ⟨hsame, ?_⟩
    cases h with
    | time e hkey => cases e <;> contradiction
    | other _ h => exact h

theorem skims_premium : Skims (Spare options .premium) (keyed (premiumMember options)) := by
  refine skims_spare fun key hkey => ?_
  have hstart : key ≠ startKey := fun h => hkey ⟨.start, h⟩
  have hfinish : key ≠ finishKey := fun h => hkey ⟨.finish, h⟩
  rw [premiumMember, if_neg hstart, if_neg hfinish]
  exact skims_skipValue

theorem carries_premium : Carries F (PremiumPair options) (premium options) (premium options) :=
  ((carries_lists (carries_keyed carries_premiumMember fun h => h.solid solid_of_premiumText) Keyed.solid
    skims_premium Spare.solid).withState _).bind_still fun _ => still_modify _

theorem carries_likeMember (key : Bytes) :
    Carries Fenced (Same (LikeText options key)) (likeMember options key) (likeMember options key) := by
  unfold likeMember
  split
  next hid =>
    refine (carries_identifier.bind_still fun _ => still_modify _).mono fun ⟨hsame, h⟩ => ⟨hsame, ?_⟩
    cases h with
    | id _ h => exact h
    | timestamp hkey => exact absurd (hkey.symm.trans hid) (by decide)
    | other hkey => exact absurd hid hkey
  next hid =>
  split
  next htimestamp =>
    refine (carries_timestamp.bind_still fun _ => still_modify _).mono fun ⟨hsame, h⟩ => ⟨hsame, ?_⟩
    cases h with
    | id hkey => exact absurd hkey hid
    | timestamp _ h => exact h
    | other _ hkey => exact absurd htimestamp hkey
  next htimestamp =>
    refine (carries_skipValue options).mono fun ⟨hsame, h⟩ => ⟨hsame, ?_⟩
    cases h with
    | id hkey => exact absurd hkey hid
    | timestamp hkey => exact absurd hkey htimestamp
    | other _ _ h => exact h

theorem skims_like : Skims (Spare options .like) (keyed (likeMember options)) := by
  refine skims_spare fun key hkey => ?_
  have hid : key ≠ likeIdKey := fun h => hkey (.inl h)
  have htimestamp : key ≠ likeTimestampKey := fun h => hkey (.inr h)
  rw [likeMember, if_neg hid, if_neg htimestamp]
  exact skims_skipValue

theorem carries_like : Carries F (LikePair options) (like options) (like options) := by
  have hmembers : Carries F (LikePair options) (members (likeMember options))
      (members (likeMember options)) :=
    carries_lists (carries_keyed carries_likeMember fun h => h.solid solid_of_likeText) Keyed.solid
      skims_like Spare.solid
  refine carries_position fun offset offset' => (hmembers.withState {}).bind_still fun found => ?_
  obtain ⟨_, ⟨id, timestamp⟩⟩ := found
  cases id with
  | none => exact still_fail _ _
  | some id =>
      cases timestamp with
      | none => exact still_fail _ _
      | some timestamp => exact still_modify _

theorem carries_likes : Carries F (LikesPair options) (likes options) (likes options) := by
  have hnone : Skims (fun _ => False) (like options) := fun _ _ _ _ h => h.elim
  exact (carries_lists carries_like Lists.solid hnone False.elim).after_modify _

/-! ### Records -/

theorem premiumPair_of_fieldText (h : FieldText options .premium bs) : PremiumPair options bs bs := by
  obtain ⟨keys, hkeys⟩ := h
  exact lists_of_listing (keyed_of_entry · fun hvalue => ⟨rfl, hvalue⟩) hkeys

theorem likesPair_of_fieldText (h : FieldText options .likes bs) : LikesPair options bs bs := by
  obtain ⟨likes, hlikes⟩ := h
  have hlike {keys : List Bytes} {bs : Bytes} (h : WholeLike options keys bs) : LikePair options bs bs :=
    lists_of_listing (keyed_of_entry · fun hvalue => ⟨rfl, hvalue⟩) h.1
  exact lists_of_listing hlike hlikes

theorem carries_interests :
    Carries F (Same (FieldText options .interests)) (interests options) (interests options) := by
  have hnone : Skims (fun _ => False) (Scan.text options >>= fun span => modify (·.pushInterest span)) :=
    fun _ _ _ _ h => h.elim
  have helements : Carries F (Lists .square (Same (AnyQuotes options)) fun _ => False)
      (elements (Scan.text options >>= fun span => modify (·.pushInterest span)))
      (elements (Scan.text options >>= fun span => modify (·.pushInterest span))) :=
    carries_lists ((carries_text options).bind_still fun _ => still_modify _)
      (fun h => h.solid fun ⟨_, htext⟩ => solid_of_quotes htext) hnone False.elim
  refine (helements.after_modify _).mono fun h => ?_
  obtain ⟨rfl, texts, htexts⟩ := h
  exact lists_of_listing (fun h => ⟨rfl, _, h⟩) htexts

theorem carries_value (field : Field) :
    Carries Fenced (FieldPair options field) (value options field) (value options field) := by
  have hmodify {α : Type} {L : Bytes → Prop} {x : Scan Account α} {f : α → Account → Account}
      (h : Carries Fenced (Same L) x x) (hpair : ∀ {bs bs'}, FieldPair options field bs bs' → Same L bs bs') :
      Carries Fenced (FieldPair options field) (x >>= fun a => modify (f a))
        (x >>= fun a => modify (f a)) := (h.bind_still fun _ => still_modify _).mono hpair
  cases field with
  | id => exact hmodify carries_identifier fun | .same h => ⟨rfl, h⟩
  | birth => exact hmodify carries_timestamp fun | .same h => ⟨rfl, h⟩
  | joined => exact hmodify carries_timestamp fun | .same h => ⟨rfl, h⟩
  | text field => exact hmodify (carries_text options) fun | .same h => ⟨rfl, h⟩
  | sex =>
      have hsex : Carries Fenced (Same (AnyQuotes options)) (sex options) (sex options) := by
        refine carries_position fun _ _ => (carries_scratch options).bind_still fun seen => ?_
        cases Sex.ofCode? seen with
        | none => exact still_fail _ _
        | some sex => exact still_modify _
      refine hsex.mono fun h => ?_
      cases h with
      | same h => exact ⟨rfl, _, h.choose_spec⟩
  | status =>
      have hstatus : Carries Fenced (Same (AnyQuotes options)) (status options) (status options) := by
        refine carries_position fun _ _ => (carries_scratch options).bind_still fun seen => ?_
        cases Status.ofLiteral? seen with
        | none => exact still_fail _ _
        | some status => exact still_modify _
      refine hstatus.mono fun h => ?_
      cases h with
      | same h => exact ⟨rfl, _, h.choose_spec⟩
  | premium =>
      exact carries_premium.mono fun
        | .same h => premiumPair_of_fieldText h
        | .premium h => h
  | interests => exact carries_interests.mono fun | .same h => ⟨rfl, h⟩
  | likes =>
      exact carries_likes.mono fun
        | .same h => likesPair_of_fieldText h
        | .likes h => h

theorem carries_member (key : Bytes) :
    Carries Fenced (ValuePair options key) (member options key) (member options key) := by
  refine Carries.after_skipSpace ?_
  cases hname : Field.ofName? key with
  | some field =>
      refine (carries_value field).mono fun h => ?_
      cases h with
      | field field' hkey h =>
          obtain rfl : field' = field := by
            rw [hkey, ofName?_key] at hname
            exact Option.some.inj hname
          exact h
      | other hkey => exact absurd (key_of_ofName? hname) (hkey field)
  | none =>
      refine (carries_skipValue options).mono fun h => ?_
      cases h with
      | field field hkey =>
          rw [hkey, ofName?_key] at hname
          cases hname
      | other _ h => exact h

theorem skims_record : Skims (Spare options .record) (keyed (member options)) := by
  refine skims_spare fun key hkey bs rest s c hjson hc hrest => ?_
  have hname : Field.ofName? key = none := by
    cases hname : Field.ofName? key with
    | none => rfl
    | some field => exact absurd ⟨field, key_of_ofName? hname⟩ hkey
  have hskip := c.skipSpace_skipSpace
  have hc' : c.skipSpace.skipSpace.rest = bs ++ rest := by rw [hskip, hc]
  have hrun : (skipValue options : Scan Account Unit).run s c.skipSpace = _ :=
    skims_skipValue hjson hc' hrest
  rw [hskip] at hrun
  rw [← hrun, member]
  simp only [hname]
  rfl

theorem carries_record : Carries F (RecordPair options) (record options) (record options) :=
  carries_lists (carries_keyed carries_member ValuePair.solid) Keyed.solid skims_record Spare.solid

end Carried

end Scan

/-! ### Places are pairs of texts -/

open Scan (Padded Spaced Rows Lists Keyed keyed_of_entry rows_of_items lists_of_listing)

section Pairs

variable {α : Type} {Q : α → Bytes → Prop} {R : Bytes → Bytes → Prop} {N : Bytes → Prop} {bs bs' text text' : Bytes}

theorem Leading.rows (h : Leading Q text) (hQ : ∀ {a bs}, Q a bs → R bs bs) (hrows : Rows R N bs bs') :
    Rows R N (text ++ bs) (text ++ bs') := by
  cases h with
  | nil => exact hrows
  | @items items row hitems =>
      rw [List.append_assoc, List.append_assoc]
      induction hitems with
      | last hbefore h hafter => exact .more (.mk hbefore (hQ h) hafter) hrows
      | @more a items before bs after rest hbefore h hafter _ ih =>
          have hmore := Rows.more (.mk hbefore (hQ h) hafter) ih
          simp only [List.append_assoc, List.cons_append] at hmore ⊢
          exact hmore

theorem rows_behind {items : List α} {extra : Bytes} (h : Items Q items text)
    (hQ : ∀ {a bs}, Q a bs → R bs bs) (hextra : Padded N extra) :
    Rows R N text (text ++ Byte.comma :: extra) := by
  induction h with
  | last hbefore h hafter => exact .behind (.mk hbefore (hQ h) hafter) hextra
  | @more a items before bs after rest hbefore h hafter _ ih =>
      have hmore := Rows.more (.mk hbefore (hQ h) hafter) ih
      simp only [List.append_assoc, List.cons_append] at hmore ⊢
      exact hmore

theorem Around.lists {bracket : Bracket} {front back : Bytes} (h : Around bracket Q front back)
    (hQ : ∀ {a bs}, Q a bs → R bs bs) (hR : R bs bs') :
    Lists bracket R N (front ++ (bs ++ back)) (front ++ (bs' ++ back)) := by
  cases h with
  | @mk leading before after trailing hleading hbefore hafter htrailing =>
      have hspaced : Spaced R (before ++ (bs ++ after)) (before ++ (bs' ++ after)) :=
        .mk hbefore hR hafter
      have hrest : Rows R N (before ++ (bs ++ after) ++ trailing) (before ++ (bs' ++ after) ++ trailing) := by
        cases htrailing with
        | nil =>
            rw [List.append_nil, List.append_nil]
            exact .last hspaced
        | items hitems => exact .more hspaced (rows_of_items hQ hitems)
      have hlists : Lists bracket R N _ _ := .full (hleading.rows hQ hrest)
      simp only [List.append_assoc, List.cons_append] at hlists ⊢
      exact hlists

theorem Slot.lists {V : Bytes → Bytes → Prop} {W : Bytes → Bytes → Bytes → Prop}
    {member front inserted back : Bytes} (h : Slot V member front inserted back)
    (hW : ∀ {key value}, V key value → W key value value) (hmember : Padded N member) :
    Lists .brace (Keyed W) N (front ++ back) (front ++ (inserted ++ back)) := by
  have hkeyed {key bs : Bytes} (h : Entry V key bs) : Keyed W bs bs := keyed_of_entry h hW
  cases h with
  | @alone gap hgap =>
      have hlists : Lists .brace (Keyed W) N _ _ := .alone hgap (hmember.gap hgap)
      simp only [List.append_assoc, List.cons_append] at hlists ⊢
      exact hlists
  | before hleading hrow =>
      have hlists : Lists .brace (Keyed W) N _ _ :=
        .full (hleading.rows hkeyed (.before hmember (rows_of_items hkeyed hrow)))
      simp only [List.append_assoc, List.cons_append] at hlists ⊢
      exact hlists
  | behind hrow =>
      have hlists : Lists .brace (Keyed W) N _ _ := .full (rows_behind hrow hkeyed hmember)
      simp only [List.append_assoc, List.cons_append] at hlists ⊢
      exact hlists

end Pairs

theorem Label.keyed {V : Bytes → Bytes → Bytes → Prop} {key label value value' : Bytes}
    (h : Label key label) (hkey : Sealed key) (hV : V key value value') :
    Keyed V (label ++ value) (label ++ value') := by
  cases h with
  | mk hbefore hafter =>
      have hkeyed := Keyed.mk hkey hbefore hafter hV
      simp only [List.append_assoc, List.cons_append] at hkeyed ⊢
      exact hkeyed

section Theorem

variable {options : Options} {owner : Owner} {gap member front inserted back tail : Bytes}

theorem valuePair_of_valueText {key value : Bytes} (h : ValueText options key value) :
    Scan.ValuePair options key value value := by
  cases h with
  | field field hkey h => exact .field field hkey (.same h)
  | other hkey h => exact .other hkey ⟨rfl, h⟩

/-- A place that is filled makes a pair of records. -/
theorem Site.pair (h : Site options member owner front inserted back)
    (hmember : NewMember options owner member) :
    Scan.RecordPair options (front ++ back) (front ++ (inserted ++ back)) := by
  cases h with
  | record h => exact h.lists valuePair_of_valueText hmember
  | premium houter hlabel h =>
      have hpremium : Scan.PremiumPair options _ _ := h.lists (fun hvalue => ⟨rfl, hvalue⟩) hmember
      have hkeyed : Keyed (Scan.ValuePair options) _ _ :=
        hlabel.keyed (Scan.sealed_key .premium) (.field .premium rfl (.premium hpremium))
      have hrecord : Scan.RecordPair options _ _ :=
        houter.lists (keyed_of_entry · valuePair_of_valueText) hkeyed
      simp only [List.append_assoc] at hrecord ⊢
      exact hrecord
  | like houter hlabel harray h =>
      have hsame {key value : Bytes} (h : LikeText options key value) :
          Scan.Same (LikeText options key) value value := ⟨rfl, h⟩
      have hlike : Scan.LikePair options _ _ := h.lists hsame hmember
      have hlikes : Scan.LikesPair options _ _ :=
        harray.lists (fun hwhole => lists_of_listing (keyed_of_entry · hsame) hwhole.1) hlike
      have hkeyed : Keyed (Scan.ValuePair options) _ _ :=
        hlabel.keyed (Scan.sealed_key .likes) (.field .likes rfl (.likes hlikes))
      have hrecord : Scan.RecordPair options _ _ :=
        houter.lists (keyed_of_entry · valuePair_of_valueText) hkeyed
      simp only [List.append_assoc] at hrecord ⊢
      exact hrecord

theorem start_of_gap {object : Bytes} (hgap : Gap gap) (hsolid : Solid object) (tail : Bytes) :
    (Cursor.start (gap ++ (object ++ tail))).skipSpace =
        (Cursor.start (gap ++ (object ++ tail))).advance gap.length ∧
      (Cursor.start (gap ++ (object ++ tail))).skipSpace.rest = object ++ tail := by
  have hskip := hgap.skipSpace_solid hsolid (c := .start (gap ++ (object ++ tail))) rfl
  refine ⟨hskip, ?_⟩
  rw [hskip]
  exact Cursor.rest_advance rfl

/-- A pair of records is decoded alike. -/
theorem decode_of_pair {account : Account} {object object' : Bytes} {n : Nat} (hgap : Gap gap)
    (hpair : Scan.RecordPair options object object')
    (h : (decode options account (gap ++ (object ++ tail))).result = .ok (.complete n)) :
    n = gap.length + object.length ∧ decode options account (gap ++ (object' ++ tail)) =
      ⟨.ok (.complete (gap.length + object'.length)),
        (decode options account (gap ++ (object ++ tail))).account⟩ := by
  obtain ⟨hskip, hrest⟩ := start_of_gap hgap hpair.solid.1 tail
  obtain ⟨hskip', hrest'⟩ := start_of_gap hgap hpair.solid.2 tail
  rw [decode_eq] at h ⊢
  rw [decode_eq]
  cases hrun : (Scan.record options).run (emptied account) (.start (gap ++ (object ++ tail))) with
  | stop why s =>
      rw [hrun] at h
      cases why <;> cases h
  | ok u s after =>
      obtain ⟨hafter, hnew⟩ := Scan.carries_record (F := fun _ => True) hpair hrest trivial hrun
      rw [hrun] at h
      cases h
      rw [hnew hrest' trivial]
      constructor
      · rw [hafter, hskip, Cursor.advance_pos, Cursor.advance_pos, Cursor.start, Nat.zero_add]
      · rw [hskip', Reply.decoded, Reply.decoded, Cursor.advance_pos, Cursor.advance_pos, Cursor.start,
          Nat.zero_add]

/-- **Unknown members are transparent.** Where a record is accepted, it is accepted with one more member
in it whose key means nothing there, whatever JSON text the value is, at any place between the members of
the record, of its premium time or of a like. It ends as much later as the member is long, and the
account is the same. -/
theorem decode_insert_member {account : Account} {n : Nat} (hgap : Gap gap)
    (hmember : NewMember options owner member) (hsite : Site options member owner front inserted back)
    (h : (decode options account (gap ++ (front ++ (back ++ tail)))).result = .ok (.complete n)) :
    let before := decode options account (gap ++ (front ++ (back ++ tail)))
    let after := decode options account (gap ++ (front ++ (inserted ++ (back ++ tail))))
    after.result = .ok (.complete (n + inserted.length)) ∧ after.account = before.account := by
  have hbefore : gap ++ (front ++ (back ++ tail)) = gap ++ (front ++ back ++ tail) := by
    rw [List.append_assoc front]
  have hafter : gap ++ (front ++ (inserted ++ (back ++ tail))) =
      gap ++ (front ++ (inserted ++ back) ++ tail) := by
    simp only [List.append_assoc]
  rw [hbefore] at h ⊢
  rw [hafter]
  obtain ⟨rfl, hdecode⟩ := decode_of_pair hgap (hsite.pair hmember) h
  intro before after
  refine ⟨?_, (congrArg Decoded.account hdecode :)⟩
  have hlength : gap.length + (front ++ back).length + inserted.length =
      gap.length + (front ++ (inserted ++ back)).length := by
    simp only [List.length_append]
    omega
  rw [hlength]
  exact congrArg Decoded.result hdecode

end Theorem

/-- A member in a like, between its two own. -/
theorem decode_insert_member_like :
    let front := Utf8.ofString "\x7b\"likes\":[\x7b\"id\":7,"
    let inserted := Utf8.ofString " \"x\":[null,\x7b\x7d],"
    let back := Utf8.ofString "\"ts\":-5\x7d]\x7d"
    let tail := Utf8.ofString " tail"
    let before := decode {} (.new {}) (front ++ (back ++ tail))
    let after := decode {} (.new {}) (front ++ (inserted ++ (back ++ tail)))
    before.result = .ok (.complete 28) ∧ after.result = .ok (.complete 43) ∧
      after.account = before.account := by
  intro front inserted back tail before after
  have hspace : Gap [Byte.space] := List.all_eq_true.1 (by decide)
  have hnull : Json (.item .square) 63 ([] ++ (Utf8.ofString "null" ++ [])) :=
    .element .nil (.word (by decide)) .nil
  have hobject : Json (.item .square) 63 ([] ++ (Utf8.ofString "\x7b\x7d" ++ [])) :=
    .element .nil (.nested (.empty .brace .nil)) .nil
  have hitems : Json (.items .square) 63 (Utf8.ofString "null,\x7b\x7d") := .more hnull (.last hobject)
  have hvalue : Json .value 64 (Utf8.ofString "[null,\x7b\x7d]") := .nested (.full hitems)
  have hentry {V : Bytes → Bytes → Prop} {key value : Bytes} (hkey : key.all Quoted.isPlain)
      (h : V key value) :
      Entry V key (Byte.quote :: (key ++ Byte.quote :: ([] ++ Byte.colon :: ([] ++ value)))) :=
    ⟨sealed_of_plain hkey, .mk .nil .nil h⟩
  have hunknown : Unknown {} .like (Utf8.ofString "x") (Utf8.ofString "[null,\x7b\x7d]") :=
    ⟨fun h => absurd h (by unfold Owner.Knows; decide), hvalue⟩
  have hmember : NewMember {} .like (Utf8.ofString " \"x\":[null,\x7b\x7d]") := by
    have htext : Utf8.ofString " \"x\":[null,\x7b\x7d]" = [Byte.space] ++ (Byte.quote ::
        (Utf8.ofString "x" ++ Byte.quote :: ([] ++ Byte.colon :: ([] ++
          Utf8.ofString "[null,\x7b\x7d]"))) ++ []) := by decide
    rw [htext]
    exact .mk hspace ⟨_, hentry (by decide) hunknown⟩ .nil
  have hdigits {bs : Bytes} (hne : bs ≠ []) (h : bs.all Byte.isDigit) : Digits bs :=
    ⟨hne, List.all_eq_true.1 h⟩
  have hseven : Numeral (7 : Nat) (Utf8.ofString "7") :=
    .bare (hdigits (show Utf8.ofString "7" ≠ [] by decide) (by decide))
  have hfive : Numeral (-(5 : Nat)) (Utf8.ofString "-5") :=
    .minus (hdigits (show Utf8.ofString "5" ≠ [] by decide) (by decide))
  have hid : LikeText {} Scan.likeIdKey (Utf8.ofString "7") := .id rfl ⟨⟨7, by decide⟩, hseven⟩
  have htimestamp : LikeText {} Scan.likeTimestampKey (Utf8.ofString "-5") :=
    .timestamp rfl ⟨⟨-5, by decide⟩, hfive⟩
  have hslot : Slot (LikeText {}) (Utf8.ofString " \"x\":[null,\x7b\x7d]")
      (Utf8.ofString "\x7b\"id\":7,") inserted (Utf8.ofString "\"ts\":-5\x7d") :=
    .before (.items (.last .nil (hentry (by decide) hid) .nil))
      (.last .nil (hentry (by decide) htimestamp) .nil)
  have hlabel : Label Field.likes.key (Utf8.ofString "\"likes\":") := .mk .nil .nil
  have hfront : front = Byte.openBrace :: ([] ++ []) ++ (Utf8.ofString "\"likes\":" ++
      (Byte.openSquare :: ([] ++ []) ++ Utf8.ofString "\x7b\"id\":7,")) := by decide
  have hback : back = Utf8.ofString "\"ts\":-5\x7d" ++ ([] ++ ([] ++ [Byte.closeSquare]) ++
      ([] ++ ([] ++ [Byte.closeBrace]))) := by decide
  have hsite : Site {} (Utf8.ofString " \"x\":[null,\x7b\x7d]") .like front inserted back := by
    rw [hfront, hback]
    exact .like (.mk .nil .nil .nil .nil) hlabel (.mk .nil .nil .nil .nil) hslot
  have hcomplete : before.result = .ok (.complete 28) := by decide +kernel
  obtain ⟨hafter, haccount⟩ := decode_insert_member .nil hmember hsite hcomplete
  exact ⟨hcomplete, hafter, haccount⟩

end Intake.Record
