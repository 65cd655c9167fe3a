import Intake.Proofs.Record.Grammar.Decode

/-!
# Where a record ends by its brackets

Two readers look for the end of a record: the decoder, and the balance of brackets by which a stream
gets past a record that is at fault. They take strings alike, and of the rest they differ in one point.
To the decoder a bracket within a bare word is a letter of it, if it is an opening one; the balance
counts it. So the two agree on a record just when no bracket opens within a word of it.
-/

namespace Intake.Record

open Intake.Stream (opens closes balancedEnd? balancedEnd?_cons reaches_of_balancedEnd?)

/-! ### Places in a text -/

/-- Where a byte stands, as the decoder sees it. -/
inductive Place where
  | outside
  | word
  | string
  /-- In a string, behind a backslash. -/
  | escape
deriving DecidableEq

/-- The place behind the byte `b`. -/
def Place.after (place : Place) (b : UInt8) : Place :=
  match place with
  | outside => if b = Byte.quote then string else if endsWord b || opens b then outside else word
  | word => if b = Byte.quote then string else if endsWord b then outside else word
  | string => if b = Byte.quote then outside else if b = Byte.backslash then escape else string
  | escape => string

/-- How many brackets open within the bare words of a text that begins at `place`. -/
def hidden (place : Place) : Bytes → Nat
  | [] => 0
  | b :: rest => (if place = .word ∧ opens b then 1 else 0) + hidden (place.after b) rest

theorem hidden_append (place : Place) (bs ts : Bytes) :
    hidden place (bs ++ ts) = hidden place bs + hidden (bs.foldl .after place) ts := by
  induction bs generalizing place with
  | nil => exact (Nat.zero_add _).symm
  | cons b bs ih => rw [List.cons_append, hidden, ih, ← Nat.add_assoc, hidden, List.foldl_cons]

/-- What ends a word is seen in a word as it is seen outside. -/
theorem word_of_endsWord {b : UInt8} {rest : Bytes} (hb : endsWord b) :
    (b :: rest).foldl .after Place.word = (b :: rest).foldl .after Place.outside ∧
      hidden .word (b :: rest) = hidden .outside (b :: rest) := by
  have hopen : opens b = false := by
    simp only [endsWord, Byte.isSpace, Bool.or_eq_true, beq_iff_eq] at hb
    rcases hb with ((((rfl | rfl) | rfl) | rfl) | rfl) | ((rfl | rfl) | rfl) | rfl <;> rfl
  have hafter : Place.word.after b = Place.outside.after b := by simp [Place.after, hb]
  exact ⟨by rw [List.foldl_cons, hafter, List.foldl_cons], by simp [hidden, hafter, hopen]⟩

theorem word_of_head {bs : Bytes} (hends : ∀ b ∈ bs.head?, endsWord b) (hne : bs ≠ []) :
    bs.foldl .after Place.word = bs.foldl .after Place.outside ∧
      hidden .word bs = hidden .outside bs := by
  obtain ⟨b, rest, rfl⟩ := List.exists_cons_of_ne_nil hne
  exact word_of_endsWord (hends b rfl)

/-! ### Texts that are balanced but for their words -/

/-- No string is left open behind `bs`, and across it the balance rises by the brackets that are hidden
in its words. -/
structure Nets (bs : Bytes) : Prop where
  calm : bs.foldl .after Place.outside = .outside ∨ bs.foldl .after Place.outside = .word
  balancedEnd?_eq : ∀ {c : Cursor} {rest : Bytes} (n : Nat), c.rest = bs ++ rest →
    balancedEnd? (n + 1) c = balancedEnd? (n + 1 + hidden .outside bs) (c.advance bs.length)

namespace Nets

variable {bs ts : Bytes} {b : UInt8} {c : Cursor} {rest : Bytes}

theorem nil : Nets [] where
  calm := .inl rfl
  balancedEnd?_eq _ _ := rfl

/-- The text `ts` may follow, which is no part of the last word of `bs`. -/
theorem append (h : Nets bs) (ht : Nets ts)
    (hends : bs.foldl .after Place.outside = .outside ∨ ∀ b ∈ ts.head?, endsWord b) :
    Nets (bs ++ ts) := by
  by_cases hne : ts = []
  · rw [hne, List.append_nil]
    exact h
  have hplace : ts.foldl .after (bs.foldl .after Place.outside) = ts.foldl .after Place.outside ∧
      hidden (bs.foldl .after .outside) ts = hidden .outside ts := by
    rcases h.calm with houtside | hword
    · rw [houtside]
      exact ⟨rfl, rfl⟩
    · rw [hword]
      refine word_of_head (hends.resolve_left fun houtside => ?_) hne
      cases hword.symm.trans houtside
  constructor
  case calm =>
    rw [List.foldl_append, hplace.1]
    exact ht.calm
  case balancedEnd?_eq =>
    intro c rest n hc
    rw [List.append_assoc] at hc
    rw [h.balancedEnd?_eq n hc, Nat.add_right_comm, ht.balancedEnd?_eq _ (Cursor.rest_advance hc),
      Cursor.advance_advance, hidden_append, hplace.2, List.length_append]
    congr 1
    omega

/-- What follows stands outside. -/
theorem append_outside (h : Nets bs) (ht : Nets ts)
    (houtside : bs.foldl .after Place.outside = .outside) : Nets (bs ++ ts) :=
  h.append ht (.inl houtside)

theorem separator (hb : isInert b) (hends : endsWord b) : Nets [b] := by
  have hquote : b ≠ Byte.quote := (isInert_iff.1 hb).2.2
  constructor
  case calm => exact .inl (by simp [Place.after, hquote, hends])
  case balancedEnd?_eq =>
    intro c rest n hc
    rw [balancedEnd?_inert _ hc hb]
    simp [hidden]

theorem gap (h : Gap bs) : Nets bs ∧ bs.foldl .after Place.outside = .outside := by
  induction bs with
  | nil => exact ⟨nil, rfl⟩
  | cons b bs ih =>
      have hspace := h b List.mem_cons_self
      have hends : endsWord b := by simp [endsWord, hspace]
      have hb := isInert_of_isSpace hspace
      have hafter : Place.outside.after b = .outside := by
        simp [Place.after, (isInert_iff.1 hb).2.2, hends]
      obtain ⟨hrest, hplace⟩ := ih fun b hb => h b (List.mem_cons_of_mem _ hb)
      refine ⟨(separator hb hends).append_outside hrest hafter, ?_⟩
      rw [List.foldl_cons, hafter]
      exact hplace

theorem letters (h : ∀ b ∈ bs, endsWord b = false) :
    bs.foldl .after Place.word = .word ∧ ∀ {c : Cursor} {rest : Bytes} (n : Nat), c.rest = bs ++ rest →
      balancedEnd? (n + 1) c = balancedEnd? (n + 1 + hidden .word bs) (c.advance bs.length) := by
  induction bs with
  | nil => exact ⟨rfl, fun _ _ => rfl⟩
  | cons b bs ih =>
      have hends := h b List.mem_cons_self
      have hquote : b ≠ Byte.quote := by
        rintro rfl
        exact absurd hends (by decide)
      have hafter : Place.word.after b = .word := by simp [Place.after, hquote, hends]
      obtain ⟨hplace, hrest⟩ := ih fun b hb => h b (List.mem_cons_of_mem _ hb)
      refine ⟨by rw [List.foldl_cons, hafter, hplace], fun n hc => ?_⟩
      have hnext := Cursor.rest_advance_one hc
      by_cases hopen : opens b
      · rw [balancedEnd?_cons hc, if_pos hopen, hrest _ hnext, Cursor.advance_advance, hidden, hafter,
          if_pos ⟨rfl, hopen⟩, List.length_cons, Nat.add_comm 1, Nat.add_assoc (n + 1)]
      · rw [balancedEnd?_inert _ hc (isInert_of_letter hends hopen), hrest _ hnext,
          Cursor.advance_advance, hidden, hafter, if_neg fun h => hopen h.2, List.length_cons,
          Nat.add_comm 1, Nat.zero_add]

theorem bare (h : Bare bs) : Nets bs := by
  obtain ⟨hends, b, bs, rfl, hopen⟩ := h
  have hb := hends b List.mem_cons_self
  have hinert : isInert b := isInert_of_letter hb (by simp [hopen])
  have hafter : Place.outside.after b = .word := by
    simp [Place.after, (isInert_iff.1 hinert).2.2, hb, hopen]
  obtain ⟨hplace, hrest⟩ := letters fun b hb => hends b (List.mem_cons_of_mem _ hb)
  constructor
  case calm =>
    rw [List.foldl_cons, hafter]
    exact .inr hplace
  case balancedEnd?_eq =>
    intro c rest n hc
    rw [balancedEnd?_inert _ hc hinert, hrest _ (Cursor.rest_advance_one hc), Cursor.advance_advance,
      hidden, hafter, if_neg fun h => Place.noConfusion h.1, List.length_cons, Nat.add_comm 1,
      Nat.zero_add]

theorem string_body (h : Sealed bs) :
    bs.foldl .after Place.string = .string ∧ hidden .string bs = 0 := by
  induction h with
  | nil => exact ⟨rfl, rfl⟩
  | plain hq hb _ ih => simpa [hidden, Place.after, hq, hb] using ih
  | escape b _ ih =>
      have hmark : Place.string.after Byte.backslash = .escape := rfl
      have hafter : Place.escape.after b = .string := rfl
      rw [List.foldl_cons, List.foldl_cons, hmark, hafter, hidden, hidden, hmark, hafter]
      simpa using ih

theorem string (h : Sealed bs) : Nets (Byte.quote :: (bs ++ [Byte.quote])) ∧
    (Byte.quote :: (bs ++ [Byte.quote])).foldl .after Place.outside = .outside := by
  obtain ⟨hplace, hhidden⟩ := string_body h
  have hfold : (Byte.quote :: (bs ++ [Byte.quote])).foldl .after Place.outside = .outside := by
    have hopen : Place.outside.after Byte.quote = .string := rfl
    rw [List.foldl_cons, hopen, List.foldl_append, hplace]
    rfl
  have hnone : hidden .outside (Byte.quote :: (bs ++ [Byte.quote])) = 0 := by
    have hopen : Place.outside.after Byte.quote = .string := rfl
    rw [hidden, hopen, hidden_append, hhidden, hplace]
    rfl
  refine ⟨⟨.inl hfold, fun {c rest} n hc => ?_⟩, hfold⟩
  have hcons : c.rest = Byte.quote :: (bs ++ Byte.quote :: rest) := by
    rw [hc, List.cons_append, List.append_assoc]
    rfl
  rw [balancedEnd?_string _ hcons (closingQuote?_of_sealed h _ _), hnone]
  simp only [List.length_cons, List.length_append, List.length_nil, Nat.zero_add]

theorem list (bracket : Bracket) (h : Nets bs) :
    Nets (bracket.opening :: (bs ++ [bracket.closing])) ∧
      (bracket.opening :: (bs ++ [bracket.closing])).foldl .after Place.outside = .outside ∧
      hidden .outside (bracket.opening :: (bs ++ [bracket.closing])) = hidden .outside bs := by
  have hopening : Place.outside.after bracket.opening = .outside := by cases bracket <;> rfl
  have hclosing : ∀ place, place = .outside ∨ place = .word →
      Place.after place bracket.closing = .outside := by
    rintro _ (rfl | rfl) <;> cases bracket <;> rfl
  have hletter : ¬ opens bracket.closing := not_opens_of_closes bracket.closes_closing
  have hfold : (bracket.opening :: (bs ++ [bracket.closing])).foldl .after Place.outside =
      .outside := by
    rw [List.foldl_cons, hopening, List.foldl_append]
    exact hclosing _ h.calm
  have hhidden : hidden .outside (bracket.opening :: (bs ++ [bracket.closing])) =
      hidden .outside bs := by
    rw [hidden, hopening, hidden_append, if_neg fun h => Place.noConfusion h.1]
    simp [hidden, hletter]
  refine ⟨⟨.inl hfold, fun {c rest} n hc => ?_⟩, hfold, hhidden⟩
  rw [List.cons_append, List.append_assoc] at hc
  have hin := Cursor.rest_advance_one hc
  have hend : ((c.advance 1).advance bs.length).rest = bracket.closing :: rest := Cursor.rest_advance hin
  rw [balancedEnd?_cons hc, if_pos bracket.opens_opening, h.balancedEnd?_eq _ hin,
    balancedEnd?_cons hend, if_neg hletter, if_pos bracket.closes_closing, if_neg (by omega), hhidden,
    Cursor.advance_advance, Cursor.advance_advance]
  simp only [List.length_cons, List.length_append, List.length_nil]
  congr 1
  · omega
  · congr 1
    omega

theorem endsWord_of_gap {gap : Bytes} (hgap : Gap gap) (hrest : ∀ b ∈ rest.head?, endsWord b) :
    ∀ b ∈ (gap ++ rest).head?, endsWord b := by
  cases gap with
  | nil => exact hrest
  | cons b gap =>
      intro b' hb'
      cases hb'
      simp [endsWord, hgap b List.mem_cons_self]

theorem spaced {before text after : Bytes} (hbefore : Gap before) (h : Nets text) (ht : Nets ts)
    (hafter : Gap after) (hends : ∀ b ∈ ts.head?, endsWord b) :
    Nets (before ++ (text ++ (after ++ ts))) := by
  obtain ⟨hfront, houtside⟩ := gap hbefore
  obtain ⟨hback, houtside'⟩ := gap hafter
  exact hfront.append_outside (h.append (hback.append_outside ht houtside')
    (.inr (endsWord_of_gap hafter hends))) houtside

section Lists

variable {α : Type} {R : α → Bytes → Prop} {given : List α} {bracket : Bracket}

theorem items (hR : ∀ {item text}, R item text → Nets text) (h : Items R given bs) : Nets bs := by
  induction h with
  | last hbefore h hafter =>
      have hlast := spaced hbefore (hR h) nil hafter fun _ hb => by cases hb
      rwa [List.append_nil] at hlast
  | more hbefore h hafter _ ih =>
      have hcomma : Nets [Byte.comma] := separator rfl rfl
      refine spaced hbefore (hR h) (hcomma.append_outside ih rfl) hafter fun b hb => ?_
      cases hb
      rfl

theorem listing (hR : ∀ {item text}, R item text → Nets text) (h : Listing bracket R given bs) :
    Nets bs := by
  cases h with
  | empty h => exact (list bracket (gap h).1).1
  | full h => exact (list bracket (items hR h)).1

end Lists

/-! ### Values -/

theorem letter_of_isDigit (hb : Byte.isDigit b) : endsWord b = false ∧ opens b = false := by
  have hinert := isInert_of_isDigit hb
  obtain ⟨-, hclose, hquote⟩ := isInert_iff.1 hinert
  refine ⟨?_, by simpa using not_opens_of_isInert hinert⟩
  have hspace : Byte.isSpace b = false := by
    cases hsp : Byte.isSpace b with
    | false => rfl
    | true => exact absurd hb (by simp [isDigit_of_isSpace hsp])
  have hcomma : b ≠ Byte.comma := by
    rintro rfl
    exact absurd hb (by decide)
  have hcolon : b ≠ Byte.colon := by
    rintro rfl
    exact absurd hb (by decide)
  simp [endsWord, hspace, hcomma, hcolon, hclose, hquote]

theorem bare_of_digits (h : Digits bs) : Bare bs := by
  obtain ⟨b, rest, rfl⟩ := List.exists_cons_of_ne_nil h.1
  exact ⟨fun b hb => (letter_of_isDigit (h.2 b hb)).1, b, rest, rfl,
    (letter_of_isDigit (h.2 b List.mem_cons_self)).2⟩

theorem numeral {v : Int} (h : Numeral v bs) : Nets bs := by
  cases h with
  | bare h => exact bare (bare_of_digits h)
  | plus h => exact bare ⟨List.forall_mem_cons.2 ⟨rfl, (bare_of_digits h).1⟩, _, _, rfl, rfl⟩
  | minus h => exact bare ⟨List.forall_mem_cons.2 ⟨rfl, (bare_of_digits h).1⟩, _, _, rfl, rfl⟩

end Nets

theorem Sealed.plain_append {digits body : Bytes}
    (hdigits : ∀ b ∈ digits, b ≠ Byte.quote ∧ b ≠ Byte.backslash) (h : Sealed body) :
    Sealed (digits ++ body) := by
  induction digits with
  | nil => exact h
  | cons b digits ih =>
      obtain ⟨⟨hq, hb⟩, hrest⟩ := List.forall_mem_cons.1 hdigits
      exact .plain hq hb (ih hrest)

theorem Sealed.unit {code : Nat} {digits body : Bytes} (hcode : HexUnit code digits) (h : Sealed body) :
    Sealed (Byte.backslash :: Byte.letterU :: (digits ++ body)) := by
  obtain ⟨_, _, _, _, hdigits, -⟩ := hcode
  exact .escape _ (h.plain_append (Quoted.plain_of_hexDigits hdigits))

theorem Spells.sealed {cs : Bool} {text body : Bytes} (h : Spells cs text body) : Sealed body := by
  induction h with
  | nil => exact .nil
  | plain hq hb _ ih => exact .plain hq hb ih
  | escape _ _ ih => exact .escape _ ih
  | unit hcode _ _ ih => exact ih.unit hcode
  | pair _ hhigh _ hlow _ _ ih => exact (ih.unit hlow).unit hhigh

namespace Nets

variable {bs : Bytes}

theorem quotes {cs : Bool} {text : Bytes} (h : Quotes cs text bs) : Nets bs := by
  obtain ⟨body, hbody, rfl⟩ := h
  exact (string hbody.sealed).1

/-- Loose text, and whether its end is outside or in a bare word that was all of it. -/
theorem loose {part : Part} {n : Nat} (h : Loose part n bs) :
    Nets bs ∧ (part = .value → Bare bs ∨ bs.foldl .after Place.outside = .outside) := by
  induction h with
  | string h => exact ⟨(string h).1, fun _ => .inr (string h).2⟩
  | bare h => exact ⟨bare h, fun _ => .inl h⟩
  | nested bracket _ ih =>
      obtain ⟨hlist, houtside, -⟩ := list bracket ih.1
      exact ⟨hlist, fun _ => .inr houtside⟩
  | nil => exact ⟨nil, fun h => by cases h⟩
  | @filler n b bs hb _ ih =>
      refine ⟨?_, fun h => by cases h⟩
      simp only [isFiller, Byte.isSpace, Bool.or_eq_true, beq_iff_eq] at hb
      have hfiller : Nets [b] ∧ [b].foldl .after Place.outside = .outside := by
        rcases hb with ((((rfl | rfl) | rfl) | rfl) | rfl) | rfl <;>
          exact ⟨separator rfl rfl, rfl⟩
      exact hfiller.1.append_outside ih.1 hfiller.2
  | @cons n value bs _ hends _ ih ih' =>
      refine ⟨ih.1.append ih'.1 ?_, fun h => by cases h⟩
      rcases ih.2 rfl with hbare | houtside
      · exact .inr (hends hbare)
      · exact .inl houtside

theorem entry {V : Bytes → Bytes → Prop} {key : Bytes} (hV : ∀ {bs}, V key bs → Nets bs)
    (h : Entry V key bs) : Nets bs := by
  obtain ⟨hkey, h⟩ := h
  cases h with
  | @mk before after value hbefore hafter h =>
      obtain ⟨hname, houtside⟩ := string hkey
      obtain ⟨hfront, hfrontOutside⟩ := gap hbefore
      obtain ⟨hback, hbackOutside⟩ := gap hafter
      have hcolon : Nets [Byte.colon] := separator rfl rfl
      have hvalue := hcolon.append_outside (hback.append_outside (hV h) hbackOutside) rfl
      have hmember := hname.append_outside (hfront.append_outside hvalue hfrontOutside) houtside
      simpa using hmember

variable {options : Options}

theorem skippedText (h : SkippedText options bs) : Nets bs := (loose h).1

theorem fieldText (field : Field) (h : FieldText options field bs) : Nets bs := by
  cases field with
  | id | birth | joined =>
      obtain ⟨_, h⟩ := h
      exact numeral h
  | sex | status | text =>
      obtain ⟨_, h⟩ := h
      exact quotes h
  | premium =>
      obtain ⟨_, h⟩ := h
      refine listing (entry fun h => ?_) h
      cases h with
      | time _ _ h =>
          obtain ⟨_, h⟩ := h
          exact numeral h
      | other _ h => exact skippedText h
  | interests =>
      obtain ⟨_, h⟩ := h
      exact listing quotes h
  | likes =>
      obtain ⟨_, h⟩ := h
      refine listing (fun h => listing (entry fun h => ?_) h.1) h
      cases h with
      | id _ h =>
          obtain ⟨_, h⟩ := h
          exact numeral h
      | timestamp _ h =>
          obtain ⟨_, h⟩ := h
          exact numeral h
      | other _ _ h => exact skippedText h

theorem valueText {key : Bytes} (h : ValueText options key bs) : Nets bs := by
  cases h with
  | field field _ h => exact fieldText field h
  | other _ h => exact skippedText h

end Nets

/-! ### Records -/

variable {options : Options} {account : Account} {input : Bytes} {n : Nat}

/-- Of an object the balance finds the end if nothing is hidden in it, and no place that early if
something is. -/
theorem balancedEnd?_of_listing {V : Bytes → Bytes → Prop} {keys : List Bytes} {object rest : Bytes}
    (hV : ∀ {key bs}, V key bs → Nets bs) (h : Listing .brace (Entry V) keys object) :
    (balancedEnd? 0 (.start (object ++ rest))).map (·.pos) = some object.length ↔
      hidden .outside object = 0 := by
  obtain ⟨inner, rfl, hinner⟩ : ∃ inner, object = Byte.openBrace :: (inner ++ [Byte.closeBrace]) ∧
      Nets inner := by
    cases h with
    | empty h => exact ⟨_, rfl, (Nets.gap h).1⟩
    | full h => exact ⟨_, rfl, Nets.items (Nets.entry hV) h⟩
  let start : Cursor := .start (Byte.openBrace :: (inner ++ [Byte.closeBrace]) ++ rest)
  have hstart : start.rest = Byte.openBrace :: (inner ++ Byte.closeBrace :: rest) := by
    simp [start, Cursor.start]
  have hin := Cursor.rest_advance_one hstart
  have hend : ((start.advance 1).advance inner.length).rest = Byte.closeBrace :: rest :=
    Cursor.rest_advance hin
  have hopen : opens Byte.openBrace := by decide
  have hclose : closes Byte.closeBrace := by decide
  have hhidden : hidden .outside (Byte.openBrace :: (inner ++ [Byte.closeBrace])) =
      hidden .outside inner := (Nets.list .brace hinner).2.2
  have hstop : (((start.advance 1).advance inner.length).advance 1).pos =
      (Byte.openBrace :: (inner ++ [Byte.closeBrace])).length := by
    simp [start, Cursor.start]
    omega
  show (balancedEnd? 0 start).map (·.pos) = _ ↔ _
  rw [hhidden, balancedEnd?_cons hstart, if_pos hopen, hinner.balancedEnd?_eq 0 hin,
    balancedEnd?_cons hend, if_neg (not_opens_of_closes hclose), if_pos hclose]
  cases hcount : hidden .outside inner with
  | zero =>
      rw [if_pos (by omega), Option.map_some, hstop]
      exact iff_of_true rfl rfl
  | succ k =>
      rw [if_neg (by omega)]
      refine iff_of_false (fun hpos => ?_) (Nat.succ_ne_zero k)
      obtain ⟨d, hd, hpos⟩ := Option.map_eq_some_iff.1 hpos
      obtain ⟨hreach, hshort⟩ := reaches_of_balancedEnd? hd
      have hsum := hreach.pos_add_length
      omega

/-- **The decoder and the balance of brackets agree but for brackets in words.** Of a record that the
decoder reads from its opening brace on, the balance finds the same end just when no bracket opens
within a bare word of it, outside of strings. -/
theorem balance_iff_of_complete (hopen : input.head? = some Byte.openBrace)
    (h : (decode options account input).result = .ok (.complete n)) :
    (balancedEnd? 0 (.start input)).map (·.pos) = some n ↔ hidden .outside (input.take n) = 0 := by
  rw [decode_eq] at h
  unfold Reply.decoded at h
  split at h
  next u s after hrun =>
    cases h
    obtain ⟨gap, object, hgap, hinput, keys, hobject⟩ :=
      Scan.accepts_members (Scan.accepts_member options) hrun
    have hinput : input = gap ++ (object ++ after.rest) := hinput
    have hnone : gap = [] := by
      cases gap with
      | nil => rfl
      | cons b gap =>
          rw [hinput] at hopen
          cases hopen
          exact absurd (hgap _ List.mem_cons_self) (by decide)
    rw [hnone, List.nil_append] at hinput
    have hlength := congrArg List.length hinput
    have hpos := (Scan.reaches _ hrun).pos_add_length
    simp only [Cursor.start, List.length_append] at hpos hlength
    have hafter : after.pos = object.length := by omega
    rw [hafter, hinput, List.take_left]
    exact balancedEnd?_of_listing Nets.valueText hobject
  · cases h
  · cases h

/-- Brackets within a string count for neither of the two. -/
theorem balance_iff_of_complete_string :
    let input := Utf8.ofString "\x7b\"x\":[1,\"]\\\"\",\x7b\x7d]\x7d]"
    (decode {} (.new {}) input).result = .ok (.complete 18) ∧
      (balancedEnd? 0 (.start input)).map (·.pos) = some 18 := by
  intro input
  have hopen : input.head? = some Byte.openBrace := by decide +kernel
  have hcomplete : (decode {} (.new {}) input).result = .ok (.complete 18) := by decide +kernel
  have hnone : hidden .outside (input.take 18) = 0 := by decide +kernel
  exact ⟨hcomplete, (balance_iff_of_complete hopen hcomplete).2 hnone⟩

/-- A bracket that opens within a word is one letter more to the decoder, and nothing closes it. -/
theorem complete_of_bracket_in_word :
    let input := Utf8.ofString "\x7b\"x\":1[\x7d"
    (decode {} (.new {}) input).result = .ok (.complete 8) ∧ balancedEnd? 0 (.start input) = none := by
  decide +kernel

end Intake.Record
