import Intake.Proofs.Record.Rendering.Number

/-!
# Reading a list that was rendered

A list is read item by item. What is known of the state is an invariant that counts the items read so
far, and a reader of items is one that takes the invariant from each item to the next.
-/

namespace Intake.Record

/-- The text starts with a byte that no list can be closed with and that is not passed over. -/
def Solid (bs : Bytes) : Prop :=
  ∃ b tail, bs = b :: tail ∧ Byte.isSpace b = false ∧ Stream.closes b = false

theorem Gap.skipSpace {gap rest : Bytes} (h : Gap gap) {b : UInt8} (hb : Byte.isSpace b = false)
    {c : Cursor} (hc : c.rest = gap ++ b :: rest) : c.skipSpace = c.advance gap.length :=
  Cursor.skipWhile_of_append h hb hc

theorem Gap.skipSpace_solid {gap bs rest : Bytes} (h : Gap gap) (hbs : Solid bs) {c : Cursor}
    (hc : c.rest = gap ++ (bs ++ rest)) : c.skipSpace = c.advance gap.length := by
  obtain ⟨b, tail, rfl, hb, -⟩ := hbs
  exact h.skipSpace hb (hc.trans (by rw [List.cons_append]))

theorem Bracket.closing_spec (bracket : Bracket) : Byte.isSpace bracket.closing = false ∧
    Byte.isDigit bracket.closing = false ∧ bracket.closing ≠ Byte.comma := by
  cases bracket <;> decide

theorem solid_of_numeral {v : Int} {bs : Bytes} (h : Numeral v bs) : Solid bs := by
  have hdigits {digits : Bytes} (h : Digits digits) : Solid digits := by
    obtain ⟨b, tail, rfl⟩ := List.exists_cons_of_ne_nil h.1
    have hb := h.2 b (List.mem_cons_self ..)
    refine ⟨b, tail, rfl, isSpace_of_isDigit hb, ?_⟩
    simpa using not_closes_of_isInert (isInert_of_isDigit hb)
  cases h with
  | bare h => exact hdigits h
  | plus h => exact ⟨_, _, rfl, by decide, by decide⟩
  | minus h => exact ⟨_, _, rfl, by decide, by decide⟩

theorem solid_of_quotes {cs : Bool} {text bs : Bytes} (h : Quotes cs text bs) : Solid bs := by
  obtain ⟨body, -, rfl⟩ := h
  exact ⟨_, _, rfl, by decide, by decide⟩

theorem solid_of_listing {α : Type} {bracket : Bracket} {R : α → Bytes → Prop} {items : List α}
    {bs : Bytes} (h : Listing bracket R items bs) : Solid bs := by
  cases h <;> exact ⟨_, _, rfl, by cases bracket <;> decide, by cases bracket <;> decide⟩

theorem Items.trim {α : Type} {R : α → Bytes → Prop} {items : List α} {text : Bytes}
    (h : Items R items text) (hsolid : ∀ {a bs}, R a bs → Solid bs) :
    ∃ gap core, Gap gap ∧ text = gap ++ core ∧ Items R items core ∧ Solid core := by
  cases h with
  | @last a before bs after hbefore h hafter =>
      have hcore : Items R [a] ([] ++ (bs ++ after)) := .last .nil h hafter
      obtain ⟨b, tail, rfl, hb⟩ := hsolid h
      exact ⟨before, _, hbefore, rfl, hcore, b, _, rfl, hb⟩
  | @more a items before bs after tail hbefore h hafter hitems =>
      have hcore : Items R (a :: items) ([] ++ (bs ++ (after ++ Byte.comma :: tail))) :=
        .more .nil h hafter hitems
      obtain ⟨b, tail, rfl, hb⟩ := hsolid h
      exact ⟨before, _, hbefore, rfl, hcore, b, _, rfl, hb⟩

namespace Scan

variable {σ α : Type}

/-- The scan reads one item and keeps the invariant `Q`, which knows the items that were read. -/
structure Takes (R : α → Bytes → Prop) (Q : List α → σ → Cursor → Prop) (item : Scan σ Unit) :
    Prop where
  solid : ∀ {a bs}, R a bs → Solid bs
  forward : ∀ {done s c d}, Q done s c → c.Reaches d → Q done s d
  step : ∀ {done a bs rest s c}, R a bs → c.skipSpace.rest = bs ++ rest → Ends rest →
    Q done s c.skipSpace → ∃ s', item.run s c = .ok () s' (c.skipSpace.advance bs.length) ∧
      Q (done ++ [a]) s' (c.skipSpace.advance bs.length)

variable {R : α → Bytes → Prop} {Q : List α → σ → Cursor → Prop} {item : Scan σ Unit}
  {bracket : Bracket}

theorem Takes.spaced (htakes : Takes R Q item) {before text after rest : Bytes} {a : α} {b : UInt8}
    {done : List α} {s : σ} {c : Cursor} (hbefore : Gap before) (h : R a text) (hafter : Gap after)
    (hspace : Byte.isSpace b = false) (hdigit : Byte.isDigit b = false)
    (hc : c.rest = before ++ (text ++ (after ++ b :: rest))) (hs : Q done s c) :
    ∃ s' d, item.run s c = .ok () s' d ∧
      d.skipSpace = c.advance (before ++ (text ++ after)).length ∧ d.skipSpace.rest = b :: rest ∧
      Q (done ++ [a]) s' d.skipSpace := by
  have hskip := hbefore.skipSpace_solid (htakes.solid h) hc
  have hin : c.skipSpace.rest = text ++ (after ++ b :: rest) := by
    rw [hskip]
    exact Cursor.rest_advance hc
  obtain ⟨s', hrun, hs'⟩ := htakes.step h hin (hafter.ends hdigit)
    (htakes.forward hs c.reaches_skipSpace)
  have hout := Cursor.rest_advance hin
  have hspaces := hafter.skipSpace hspace hout
  refine ⟨s', _, hrun, ?_, ?_, htakes.forward hs' (Cursor.reaches_skipSpace _)⟩
  · rw [hspaces, hskip]
    simp only [Cursor.advance_advance, List.length_append, Nat.add_assoc]
  · rw [hspaces]
    exact Cursor.rest_advance hout

theorem runItems_of_items (htakes : Takes R Q item) {items : List α} {text : Bytes}
    (h : Items R items text) {done : List α} {s : σ} {c : Cursor} {rest : Bytes}
    (hc : c.rest = text ++ bracket.closing :: rest) (hs : Q done s c) :
    ∃ s', runItems bracket.closing item s c = .ok () s' (c.advance (text.length + 1)) ∧
      Q (done ++ items) s' (c.advance (text.length + 1)) := by
  obtain ⟨hspace, hdigit, hcomma⟩ := bracket.closing_spec
  induction h generalizing done s c with
  | @last a before text after hbefore h hafter =>
      have hc' : c.rest = before ++ (text ++ (after ++ bracket.closing :: rest)) := by
        rw [hc]
        simp only [List.append_assoc]
      obtain ⟨s', d, hrun, hpos, hrest, hs'⟩ := htakes.spaced hbefore h hafter hspace hdigit hc' hs
      refine ⟨s', ?_, ?_⟩
      · rw [runItems_eq, hrun]
        simp only [hrest, if_neg hcomma, if_true]
        rw [hpos, Cursor.advance_advance]
      · rw [← Cursor.advance_advance, ← hpos]
        exact htakes.forward hs' (Cursor.reaches_advance_one hrest)
  | @more a as before text after tail hbefore h hafter hitems ih =>
      have hc' : c.rest = before ++ (text ++ (after ++ Byte.comma ::
          (tail ++ bracket.closing :: rest))) := by
        rw [hc]
        simp only [List.append_assoc, List.cons_append]
      obtain ⟨s', d, hrun, hpos, hrest, hs'⟩ :=
        htakes.spaced hbefore h hafter (by decide) (by decide) hc' hs
      obtain ⟨s'', hrun', hs''⟩ := ih (Cursor.rest_advance_one hrest)
        (htakes.forward hs' (Cursor.reaches_advance_one hrest))
      have hend : (d.skipSpace.advance 1).advance (tail.length + 1) =
          c.advance ((before ++ (text ++ (after ++ Byte.comma :: tail))).length + 1) := by
        rw [hpos]
        simp only [Cursor.advance_advance, List.length_append, List.length_cons]
        congr 1
        omega
      refine ⟨s'', ?_, ?_⟩
      · rw [runItems_eq, hrun]
        simp only [hrest, if_true]
        rw [← hend]
        exact hrun'
      · rw [← hend, List.append_cons]
        exact hs''

/-! ### Lists -/

section Opened

variable {close : UInt8} {s : σ} {c : Cursor} {text rest : Bytes}

/-- Text that begins, behind whitespace, with a byte that no list can be closed with. -/
def Begins (text : Bytes) : Prop := ∃ gap core, Gap gap ∧ text = gap ++ core ∧ Solid core

theorem runList_of_begins (h : Begins text) (hc : c.rest = text ++ rest) :
    runList bracket.closing item s c = runItems bracket.closing item s c.skipSpace := by
  obtain ⟨gap, core, hgap, rfl, b, tail, rfl, hspace, hclose⟩ := h
  have hskip : c.skipSpace.rest = b :: (tail ++ rest) := by
    rw [hgap.skipSpace hspace (hc.trans (List.append_assoc ..))]
    exact Cursor.rest_advance (hc.trans (List.append_assoc ..))
  have hne : b ≠ bracket.closing := by
    rintro rfl
    exact absurd bracket.closes_closing (by simp [hclose])
  simp only [runList, hskip, if_neg hne]

theorem runList_of_gap {gap : Bytes} (h : Gap gap) (hc : c.rest = gap ++ bracket.closing :: rest) :
    runList bracket.closing item s c = .ok () s (c.advance (gap.length + 1)) := by
  have hskip := h.skipSpace bracket.closing_spec.1 hc
  simp only [runList, hskip, Cursor.rest_advance hc, if_true, Cursor.advance_advance]

theorem opened_run {tail : Bytes} (hc : c.skipSpace.rest = bracket.opening :: tail) :
    (expect bracket.opening >>= fun _ => list close item).run s c =
      runList close item s (c.skipSpace.advance 1) := by
  simp only [run_bind, expect, read, expect_of_cons hc, if_true]
  rfl

end Opened

/-- A list between its brackets, wherever it starts. -/
theorem list_of_listing (htakes : Takes R Q item) {items : List α} {bs rest : Bytes}
    (h : Listing bracket R items bs) {s : σ} {c : Cursor} (hc : c.skipSpace.rest = bs ++ rest)
    (hs : Q [] s c.skipSpace) :
    ∃ s', (expect bracket.opening >>= fun _ => list bracket.closing item).run s c =
        .ok () s' (c.skipSpace.advance bs.length) ∧
      Q items s' (c.skipSpace.advance bs.length) := by
  cases h with
  | @empty gap h =>
      have hcons : c.skipSpace.rest = bracket.opening :: (gap ++ bracket.closing :: rest) := by
        rw [hc]
        simp
      refine ⟨s, ?_, htakes.forward hs (Cursor.reaches_advance_append hc)⟩
      rw [opened_run hcons, runList_of_gap h (Cursor.rest_advance_one hcons), Cursor.advance_advance,
        List.length_cons, List.length_append, Nat.add_comm 1]
      rfl
  | @full items text h =>
      obtain ⟨gap, core, hgap, rfl, hcore, hsolid⟩ := h.trim htakes.solid
      have hcons : c.skipSpace.rest =
          bracket.opening :: (gap ++ (core ++ bracket.closing :: rest)) := by
        rw [hc]
        simp
      have hin := Cursor.rest_advance_one hcons
      have hskip := hgap.skipSpace_solid hsolid hin
      have hbody := Cursor.rest_advance hin
      rw [← hskip] at hbody
      have hbegins : Begins (gap ++ core) := ⟨gap, core, hgap, rfl, hsolid⟩
      have hreach : c.skipSpace.Reaches (c.skipSpace.advance 1).skipSpace :=
        (Cursor.reaches_advance_one hcons).trans (Cursor.reaches_skipSpace _)
      obtain ⟨s', hitems, hs'⟩ := runItems_of_items htakes hcore hbody (htakes.forward hs hreach)
      have hend : (c.skipSpace.advance 1).skipSpace.advance (core.length + 1) =
          c.skipSpace.advance (bracket.opening :: (gap ++ core ++ [bracket.closing])).length := by
        rw [hskip]
        simp only [Cursor.advance_advance, List.length_append, List.length_cons, List.length_nil]
        congr 1
        omega
      rw [hend] at hitems hs'
      refine ⟨s', ?_, hs'⟩
      rw [opened_run hcons, runList_of_begins hbegins (hin.trans (List.append_assoc ..).symm), hitems]

/-! ### Members -/

theorem keyed_run {member : Bytes → Scan σ Unit} {key before tail : Bytes} (hkey : Sealed key)
    (hbefore : Gap before) {s : σ} {c : Cursor} (hc : c.skipSpace.rest =
      Byte.quote :: (key ++ Byte.quote :: (before ++ Byte.colon :: tail))) :
    (keyed member).run s c =
      (member key).run s (c.skipSpace.advance (key.length + before.length + 3)) := by
  have hbody := Cursor.rest_advance_one hc
  have hquote : closingQuote? 0 (c.skipSpace.advance 1).rest = some key.length := by
    rw [hbody, closingQuote?_of_sealed hkey, Nat.zero_add]
  have hraw : (rawString : Scan σ Bytes).run s c =
      .ok key s ((c.skipSpace.advance 1).advance (key.length + 1)) := by
    simp only [rawString, read, Record.rawString, expect_of_cons hc, if_true, hquote]
    rw [hbody, List.take_left]
  have hafter : ((c.skipSpace.advance 1).advance (key.length + 1)).rest =
      before ++ Byte.colon :: tail := by
    rw [← Cursor.advance_advance]
    exact Cursor.rest_advance_one (Cursor.rest_advance hbody)
  have hskip := hbefore.skipSpace (by decide) hafter
  have hcolon := Cursor.rest_advance hafter
  rw [← hskip] at hcolon
  have hexpect : ∀ d : Cursor, d.skipSpace.rest = Byte.colon :: tail →
      (expect Byte.colon : Scan σ Unit).run s d = .ok () s (d.skipSpace.advance 1) := by
    intro d hd
    simp only [expect, read, expect_of_cons hd, if_true]
  rw [keyed, run_bind, hraw]
  dsimp only
  rw [run_bind, hexpect _ hcolon, hskip]
  simp only [Cursor.advance_advance]
  congr 2
  omega

/-- Where the value of a member stands, and where it ends. -/
theorem keyed_value {member : Bytes → Scan σ Unit} {key before after value rest : Bytes}
    (hkey : Sealed key) (hbefore : Gap before) (hafter : Gap after) (hvalue : Solid value) {c : Cursor}
    (hc : c.skipSpace.rest = Byte.quote :: (key ++ Byte.quote :: (before ++ Byte.colon ::
      (after ++ value))) ++ rest) :
    ∃ e : Cursor, (∀ s, (keyed member).run s c = (member key).run s e) ∧
      e.skipSpace.rest = value ++ rest ∧
      e.skipSpace.advance value.length = c.skipSpace.advance (Byte.quote :: (key ++ Byte.quote ::
        (before ++ Byte.colon :: (after ++ value)))).length ∧ c.skipSpace.Reaches e.skipSpace := by
  have hcons : c.skipSpace.rest = Byte.quote :: (key ++ Byte.quote ::
      (before ++ Byte.colon :: (after ++ (value ++ rest)))) := by
    rw [hc]
    simp
  have hfront : c.skipSpace.rest = Byte.quote :: (key ++ Byte.quote ::
      (before ++ [Byte.colon])) ++ (after ++ (value ++ rest)) := by
    rw [hcons]
    simp
  have hlength : (Byte.quote :: (key ++ Byte.quote :: (before ++ [Byte.colon]))).length =
      key.length + before.length + 3 := by
    simp only [List.length_cons, List.length_append, List.length_nil]
    omega
  have hpast := Cursor.rest_advance hfront
  rw [hlength] at hpast
  have hskip := hafter.skipSpace_solid hvalue hpast
  refine ⟨_, fun s => keyed_run hkey hbefore hcons, ?_, ?_, ?_⟩
  · rw [hskip]
    exact Cursor.rest_advance hpast
  · rw [hskip]
    simp only [Cursor.advance_advance, List.length_cons, List.length_append]
    congr 1
    omega
  · exact (hlength ▸ Cursor.reaches_advance_append hfront).trans (Cursor.reaches_skipSpace _)

theorem takes_keyed {member : Bytes → Scan σ Unit} {key : α → Bytes} {V : α → Bytes → Prop}
    (hkey : ∀ a, Sealed (key a)) (forward : ∀ {done s c d}, Q done s c → c.Reaches d → Q done s d)
    (solid : ∀ {a bs}, V a bs → Solid bs)
    (step : ∀ {done a bs rest s c}, V a bs → c.skipSpace.rest = bs ++ rest → Ends rest →
      Q done s c.skipSpace → ∃ s', (member (key a)).run s c = .ok () s' (c.skipSpace.advance bs.length) ∧
        Q (done ++ [a]) s' (c.skipSpace.advance bs.length)) :
    Takes (fun a => Member (key a) (V a)) Q (keyed member) where
  solid := by
    rintro a bs ⟨⟩
    exact ⟨Byte.quote, _, rfl, by decide, by decide⟩
  forward := forward
  step := by
    intro done a bs rest s c hmember hc hends hs
    cases hmember with
    | @mk before after value hbefore hafter h =>
        obtain ⟨e, hvalue, hin, hend, hreach⟩ := keyed_value (hkey a) hbefore hafter (solid h) hc
        obtain ⟨s', hrun, hs'⟩ := step h hin hends (forward hs hreach)
        rw [hend] at hrun hs'
        exact ⟨s', by rw [hvalue, hrun], hs'⟩

end Scan

end Intake.Record
