import Intake.Proofs.Record.Skipped
import Intake.Proofs.Record.Grammar.Decode

/-!
# One scan, two texts

What a scan makes of a text does not depend on where the text stands, and for some pairs of texts it is
the same for both: when a scan has read the first to its end, it reads the second to its end, wherever
that stands, and comes to the same value and the same state. `Carries` says so of a scan and of a
relation between texts. It does not say that the scan succeeds on the first text, which may well be full
of numbers out of range or may not fit the arena.

For a list the two texts may differ by items that leave no trace.
-/

namespace Intake.Record

namespace Scan

variable {σ τ α β : Type} {F : Bytes → Prop} {R R' : Bytes → Bytes → Prop}

/-- When `x` succeeds on the first of two texts it has read all of it, and `y` reads all of the second one
to the same effect, wherever that stands. What follows the texts is in `F`. -/
def Carries (F : Bytes → Prop) (R : Bytes → Bytes → Prop) (x y : Scan σ α) : Prop :=
  ∀ ⦃bs bs' rest : Bytes⦄ ⦃s s' : σ⦄ ⦃a : α⦄ ⦃c d : Cursor⦄, R bs bs' →
    c.skipSpace.rest = bs ++ rest → F rest → x.run s c = .ok a s' d →
      d = c.skipSpace.advance bs.length ∧
        ∀ ⦃c' : Cursor⦄ ⦃rest' : Bytes⦄, c'.skipSpace.rest = bs' ++ rest' → F rest' →
          y.run s c' = .ok a s' (c'.skipSpace.advance bs'.length)

/-- Twice the same text, one of `L`. -/
def Same (L : Bytes → Prop) (bs bs' : Bytes) : Prop := bs' = bs ∧ L bs

/-- A scan that does not read, and does the same anywhere. -/
def Still (x y : Scan σ α) : Prop :=
  ∀ ⦃s s' : σ⦄ ⦃a : α⦄ ⦃c d : Cursor⦄, x.run s c = .ok a s' d →
    d = c ∧ ∀ c' : Cursor, y.run s c' = .ok a s' c'

theorem still_modify (f : σ → σ) : Still (modify f) (modify f) := by
  intro s s' u c d hrun
  cases hrun
  exact ⟨rfl, fun _ => rfl⟩

theorem still_fail (fault : Fault) (y : Scan σ α) : Still (fail fault) y := fun _ _ _ _ _ hrun =>
  absurd hrun (by simp [fail])

section Steps

variable {x y : Scan σ α} {f g : α → Scan σ β}

theorem Carries.mono (h : Carries F R x y) (hmono : ∀ {bs bs'}, R' bs bs' → R bs bs') :
    Carries F R' x y := fun _ _ _ _ _ _ _ _ hR => h (hmono hR)

theorem Carries.bind_still (h : Carries F R x y) (hstill : ∀ a, Still (f a) (g a)) :
    Carries F R (x >>= f) (y >>= g) := by
  intro bs bs' rest s s' b c d hR hc hrest hrun
  obtain ⟨a, s₁, e, hx, hf⟩ := run_bind_eq_ok hrun
  obtain ⟨rfl, hy⟩ := h hR hc hrest hx
  obtain ⟨rfl, hg⟩ := hstill a hf
  refine ⟨rfl, fun c' rest' hc' hrest' => ?_⟩
  rw [run_bind, hy hc' hrest']
  exact hg _

theorem Carries.after_modify (h : Carries F R x y) (f : σ → σ) :
    Carries F R (modify f >>= fun _ => x) (modify f >>= fun _ => y) :=
  fun _ _ _ _ _ _ _ _ hR hc hrest hrun => h hR hc hrest hrun

theorem Carries.after_skipSpace (h : Carries F R x y) :
    Carries F R (skipSpace >>= fun _ => x) (skipSpace >>= fun _ => y) := by
  intro bs bs' rest s s' a c d hR hc hrest hrun
  have hin (e : Cursor) : e.skipSpace.skipSpace = e.skipSpace := e.skipSpace_skipSpace
  obtain ⟨rfl, hy⟩ := h hR (c := c.skipSpace) (by rw [hin, hc]) hrest hrun
  refine ⟨by rw [hin], fun c' rest' hc' hrest' => ?_⟩
  have hrest'' : c'.skipSpace.skipSpace.rest = bs' ++ rest' := by rw [hin, hc']
  have hrun' := hy hrest'' hrest'
  rw [hin] at hrun'
  exact hrun'

theorem carries_position {f g : Nat → Scan σ α} (h : ∀ offset offset', Carries F R (f offset) (g offset')) :
    Carries F R (position >>= f) (position >>= g) := by
  intro bs bs' rest s s' a c d hR hc hrest hrun
  refine ⟨(h c.pos c.pos hR hc hrest hrun).1, fun c' rest' hc' hrest' => ?_⟩
  exact (h c.pos c'.pos hR hc hrest hrun).2 hc' hrest'

theorem Carries.withState {x y : Scan τ α} (h : Carries F R x y) (init : τ) :
    Carries F R (withState init x : Scan σ (α × τ)) (withState init y) := by
  intro bs bs' rest s s' a c d hR hc hrest hrun
  rw [run_withState] at hrun
  split at hrun
  next hx =>
    cases hrun
    obtain ⟨rfl, hy⟩ := h hR hc hrest hx
    refine ⟨rfl, fun c' rest' hc' hrest' => ?_⟩
    rw [run_withState, hy hc' hrest']
  · cases hrun

end Steps

/-! ### Tokens -/

/-- A reader that reads a text of `L` to the same value wherever it stands. -/
theorem carries_read {L : Bytes → Prop} {f : Cursor → Read α} {hf : Forward f}
    (h : ∀ {bs}, L bs → ∃ a, ∀ {c : Cursor} {rest}, c.skipSpace.rest = bs ++ rest → Fenced rest →
      f c = .ok (a, c.skipSpace.advance bs.length)) :
    Carries Fenced (Same L) (read f hf : Scan σ α) (read f hf) := by
  rintro bs _ rest s s' a c d ⟨rfl, hL⟩ hc hrest hrun
  obtain ⟨found, hfound⟩ := h hL
  obtain ⟨hread, rfl⟩ := run_read_eq_ok hrun
  cases (hfound hc hrest).symm.trans hread
  refine ⟨rfl, fun c' rest' hc' hrest' => ?_⟩
  rw [run_read, hfound hc' hrest']

theorem carries_identifier :
    Carries Fenced (Same IdentifierText) (identifier : Scan σ Nat) identifier :=
  carries_read fun ⟨n, hn⟩ => ⟨n.1, fun hc hrest => identifier_of_numeral hn hc hrest.ends⟩

theorem carries_timestamp :
    Carries Fenced (Same TimestampText) (timestamp : Scan σ Int) timestamp :=
  carries_read fun ⟨t, ht⟩ => ⟨t.1, fun hc hrest => timestamp_of_numeral ht hc hrest.ends⟩

theorem carries_skipValue (options : Options) :
    Carries Fenced (Same (SkippedText options)) (skipValue options : Scan σ Unit) (skipValue options) :=
  carries_read fun h => ⟨(), fun hc hrest => skipValue_of_skippedText h hc hrest⟩

/-- What is decoded into an arena does not depend on where it is read. -/
theorem quoted_congr {cs : Bool} {arena : Arena} {text bs rest : Bytes} {c d : Cursor}
    {found : Span × Arena} (h : Quotes cs text bs) (hc : c.skipSpace.rest = bs ++ rest)
    (hquoted : quoted cs arena c = .ok (found, d)) :
    d = c.skipSpace.advance bs.length ∧ ∀ {c' : Cursor} {rest' : Bytes},
      c'.skipSpace.rest = bs ++ rest' → quoted cs arena c' = .ok (found, c'.skipSpace.advance bs.length) := by
  obtain ⟨body, hspells, rfl⟩ := h
  have hbody {c : Cursor} {rest : Bytes}
      (hc : c.skipSpace.rest = Byte.quote :: (body ++ [Byte.quote]) ++ rest) :
      c.skipSpace.rest = Byte.quote :: (body ++ Byte.quote :: rest) ∧
        ReadsAs cs text body (c.skipSpace.advance 1) := by
    have hcons : c.skipSpace.rest = Byte.quote :: (body ++ Byte.quote :: rest) := by
      rw [hc]
      simp
    exact ⟨hcons, readsAs_of_spells hspells (Cursor.rest_advance_one hcons)⟩
  have hend (c : Cursor) : (c.skipSpace.advance 1).advance (body.length + 1) =
      c.skipSpace.advance (Byte.quote :: (body ++ [Byte.quote])).length := by
    rw [Cursor.advance_advance, List.length_cons, List.length_append, Nat.add_comm 1]
    rfl
  obtain ⟨hcons, hread⟩ := hbody hc
  rw [quoted_eq hcons] at hquoted
  simp only [Quoted.decode] at hquoted
  cases hextend : arena.extendAll (Quoted.read cs (c.skipSpace.advance 1)).pieces with
  | error overflow =>
      rw [hextend] at hquoted
      cases hquoted
  | ok written =>
      rw [hextend, hread.ending] at hquoted
      cases hquoted
      refine ⟨hend c, fun {c' rest'} hc' => ?_⟩
      obtain ⟨hcons', hread'⟩ := hbody hc'
      have hroom := Arena.room_of_extendAll hextend
      rw [hread.flatten, ← hread'.flatten] at hroom
      obtain ⟨written', hextend', hcontents', hcapacity'⟩ := Arena.extendAll_of_le_remaining hroom
      have hsame : written' = written := by
        apply Arena.eq_of_contents
        · rw [hcontents', Arena.contents_extendAll hextend, hread.flatten, hread'.flatten]
        · rw [hcapacity', Arena.capacity_extendAll hextend]
      rw [quoted_eq hcons', Quoted.decode]
      simp only [hextend', hread'.ending, hsame, hend]

section Texts

variable (options : Options)

/-- A string, whatever it stands for. -/
abbrev AnyQuotes (bs : Bytes) : Prop := ∃ text, Quotes options.combineSurrogates text bs

theorem carries_text : Carries F (Same (AnyQuotes options)) (text options) (text options) := by
  rintro bs _ rest s s' span c d ⟨rfl, text, hquotes⟩ hc _ hrun
  rw [text_run] at hrun
  split at hrun
  · cases hrun
  next hquoted =>
    cases hrun
    obtain ⟨rfl, hsame⟩ := quoted_congr hquotes hc hquoted
    refine ⟨rfl, fun c' rest' hc' _ => ?_⟩
    rw [text_run, hsame hc']

theorem carries_scratch : Carries F (Same (AnyQuotes options)) (scratch options) (scratch options) := by
  rintro bs _ rest s s' seen c d ⟨rfl, text, hquotes⟩ hc _ hrun
  rw [scratch_run] at hrun
  split at hrun
  · cases hrun
  next hquoted =>
    cases hrun
    obtain ⟨rfl, hsame⟩ := quoted_congr hquotes hc hquoted
    refine ⟨rfl, fun c' rest' hc' _ => ?_⟩
    rw [scratch_run, hsame hc']

end Texts

/-! ### Rows of items -/

/-- A byte that follows an item. -/
def Separates (b : UInt8) : Prop := b = Byte.comma ∨ ∃ bracket : Bracket, b = bracket.closing

theorem Separates.spec {b : UInt8} (h : Separates b) : Byte.isSpace b = false ∧ endsWord b = true := by
  rcases h with rfl | ⟨bracket, rfl⟩
  · decide
  · exact ⟨bracket.closing_spec.1, bracket.endsWord_closing⟩

/-- A text of `N` with whitespace around it. -/
inductive Padded (N : Bytes → Prop) : Bytes → Prop
  | mk {before bs after : Bytes} (hbefore : Gap before) (h : N bs) (hafter : Gap after) :
      Padded N (before ++ (bs ++ after))

/-- Two texts that differ within whitespace around them. -/
inductive Spaced (R : Bytes → Bytes → Prop) : Bytes → Bytes → Prop
  | mk {before bs bs' after : Bytes} (hbefore : Gap before) (h : R bs bs') (hafter : Gap after) :
      Spaced R (before ++ (bs ++ after)) (before ++ (bs' ++ after))

/-- Two rows of items with commas between them. The second may have items of `N` besides. -/
inductive Rows (R : Bytes → Bytes → Prop) (N : Bytes → Prop) : Bytes → Bytes → Prop
  | last {item item' : Bytes} (h : Spaced R item item') : Rows R N item item'
  | behind {item item' extra : Bytes} (h : Spaced R item item') (hextra : Padded N extra) :
      Rows R N item (item' ++ Byte.comma :: extra)
  | more {item item' rest rest' : Bytes} (h : Spaced R item item') (hrest : Rows R N rest rest') :
      Rows R N (item ++ Byte.comma :: rest) (item' ++ Byte.comma :: rest')
  | before {extra rest rest' : Bytes} (hextra : Padded N extra) (hrest : Rows R N rest rest') :
      Rows R N rest (extra ++ Byte.comma :: rest')

/-- Two lists between their brackets. -/
inductive Lists (bracket : Bracket) (R : Bytes → Bytes → Prop) (N : Bytes → Prop) : Bytes → Bytes → Prop
  | empty {gap : Bytes} (h : Gap gap) : Lists bracket R N (bracket.opening :: (gap ++ [bracket.closing]))
      (bracket.opening :: (gap ++ [bracket.closing]))
  | alone {gap extra : Bytes} (h : Gap gap) (hextra : Padded N extra) :
      Lists bracket R N (bracket.opening :: (gap ++ [bracket.closing]))
        (bracket.opening :: (extra ++ [bracket.closing]))
  | full {text text' : Bytes} (h : Rows R N text text') :
      Lists bracket R N (bracket.opening :: (text ++ [bracket.closing]))
        (bracket.opening :: (text' ++ [bracket.closing]))

/-- The scan reads each text of `N` and leaves no trace of it. -/
def Skims (N : Bytes → Prop) (x : Scan σ Unit) : Prop :=
  ∀ ⦃bs rest : Bytes⦄ ⦃s : σ⦄ ⦃c : Cursor⦄, N bs → c.skipSpace.rest = bs ++ rest → Fenced rest →
    x.run s c = .ok () s (c.skipSpace.advance bs.length)

section Rows

variable {N : Bytes → Prop} {item : Scan σ Unit} {bracket : Bracket} {close b : UInt8} {s s' : σ}
  {u : Unit} {c c₀ d : Cursor} {text text' rest : Bytes}

/-- Where a text stands that has whitespace around it and a separator behind. Reading may have begun
before the whitespace or within it. -/
theorem rest_of_padded {before bs after : Bytes} (hbefore : Gap before) (hbs : Solid bs)
    (hafter : Gap after) (hb : Separates b) (hc : c.skipSpace = c₀.skipSpace)
    (hc₀ : c₀.rest = before ++ (bs ++ after) ++ b :: rest) :
    c.skipSpace.rest = bs ++ (after ++ b :: rest) ∧ Fenced (after ++ b :: rest) ∧
      (c.skipSpace.advance bs.length).skipSpace = c₀.advance (before ++ (bs ++ after)).length := by
  have hcons : c₀.rest = before ++ (bs ++ (after ++ b :: rest)) := by
    rw [hc₀]
    simp only [List.append_assoc]
  have hskip : c.skipSpace = c₀.advance before.length := by
    rw [hc, hbefore.skipSpace_solid hbs hcons]
  have hin := Cursor.rest_advance hcons
  rw [← hskip] at hin
  refine ⟨hin, hafter.fenced hb.spec.2, ?_⟩
  rw [hafter.skipSpace hb.spec.1 (Cursor.rest_advance hin), hskip]
  simp only [Cursor.advance_advance, List.length_append, Nat.add_assoc]

theorem Carries.spaced (h : Carries Fenced R item item)
    (hsolid : ∀ {bs bs'}, R bs bs' → Solid bs ∧ Solid bs') (htexts : Spaced R text text')
    (hc : c.skipSpace = c₀.skipSpace) (hc₀ : c₀.rest = text ++ b :: rest) (hb : Separates b)
    (hrun : item.run s c = .ok u s' d) :
    d.skipSpace = c₀.advance text.length ∧ ∀ {c' c₀' : Cursor} {b' : UInt8} {rest' : Bytes},
      c'.skipSpace = c₀'.skipSpace → c₀'.rest = text' ++ b' :: rest' → Separates b' →
        ∃ d', item.run s c' = .ok u s' d' ∧ d'.skipSpace = c₀'.advance text'.length := by
  cases htexts with
  | @mk before bs bs' after hbefore hR hafter =>
      obtain ⟨hin, hfenced, hend⟩ := rest_of_padded hbefore (hsolid hR).1 hafter hb hc hc₀
      obtain ⟨rfl, hrun'⟩ := h hR hin hfenced hrun
      refine ⟨hend, fun {c' c₀' b' rest'} hc' hc₀' hb' => ?_⟩
      obtain ⟨hin', hfenced', hend'⟩ := rest_of_padded hbefore (hsolid hR).2 hafter hb' hc' hc₀'
      exact ⟨_, hrun' hin' hfenced', hend'⟩

theorem Skims.padded (h : Skims N item) (hsolid : ∀ {bs}, N bs → Solid bs) (htext : Padded N text)
    (hc : c.skipSpace = c₀.skipSpace) (hc₀ : c₀.rest = text ++ b :: rest) (hb : Separates b) (s : σ) :
    ∃ d, item.run s c = .ok () s d ∧ d.skipSpace = c₀.advance text.length := by
  cases htext with
  | mk hbefore hN hafter =>
      obtain ⟨hin, hfenced, hend⟩ := rest_of_padded hbefore (hsolid hN) hafter hb hc hc₀
      exact ⟨_, h hN hin hfenced, hend⟩

/-! ### Lists -/

theorem item_of_runItems (h : runItems close item s c = .ok u s' d) :
    ∃ s₁ d₁, item.run s c = .ok () s₁ d₁ := by
  rw [runItems_eq] at h
  split at h
  · cases h
  next s₁ d₁ hitem => exact ⟨s₁, d₁, hitem⟩

theorem runItems_comma {s₁ : σ} (hitem : item.run s c = .ok () s₁ d)
    (hd : d.skipSpace = c₀.advance text.length) (hc₀ : c₀.rest = text ++ Byte.comma :: rest) :
    runItems close item s c = runItems close item s₁ (c₀.advance (text.length + 1)) := by
  rw [runItems_eq, hitem]
  simp only [hd, Cursor.rest_advance hc₀, if_true, Cursor.advance_advance]

theorem runItems_closing {s₁ : σ} (hitem : item.run s c = .ok () s₁ d)
    (hd : d.skipSpace = c₀.advance text.length) (hc₀ : c₀.rest = text ++ bracket.closing :: rest) :
    runItems bracket.closing item s c = .ok () s₁ (c₀.advance (text.length + 1)) := by
  rw [runItems_eq, hitem]
  simp only [hd, Cursor.rest_advance hc₀, if_neg bracket.closing_spec.2.2, if_true,
    Cursor.advance_advance]

theorem rest_past {first more : Bytes} (hc₀ : c₀.rest = first ++ Byte.comma :: more) :
    (c₀.advance (first.length + 1)).rest = more := by
  rw [← Cursor.advance_advance]
  exact Cursor.rest_advance_one (Cursor.rest_advance hc₀)

/-- Items that are carried make a row that is carried, and items that leave no trace make no difference. -/
theorem runItems_rows (hitem : Carries Fenced R item item)
    (hsolid : ∀ {bs bs'}, R bs bs' → Solid bs ∧ Solid bs') (hextra : Skims N item)
    (hsolid' : ∀ {bs}, N bs → Solid bs) (h : Rows R N text text') (hc : c.skipSpace = c₀.skipSpace)
    (hc₀ : c₀.rest = text ++ bracket.closing :: rest)
    (hrun : runItems bracket.closing item s c = .ok u s' d) :
    d = c₀.advance (text.length + 1) ∧ ∀ {c' c₀' : Cursor} {rest' : Bytes},
      c'.skipSpace = c₀'.skipSpace → c₀'.rest = text' ++ bracket.closing :: rest' →
        runItems bracket.closing item s c' = .ok () s' (c₀'.advance (text'.length + 1)) := by
  have hclosing : Separates bracket.closing := .inr ⟨bracket, rfl⟩
  have hcomma : Separates Byte.comma := .inl rfl
  have hassoc {first more : Bytes} {e : Cursor} {tail : Bytes}
      (he : e.rest = first ++ Byte.comma :: more ++ bracket.closing :: tail) :
      e.rest = first ++ Byte.comma :: (more ++ bracket.closing :: tail) := by
    rw [he, List.append_assoc, List.cons_append]
  have hjoin (e : Cursor) (first more : Bytes) :
      (e.advance (first.length + 1)).advance (more.length + 1) =
        e.advance ((first ++ Byte.comma :: more).length + 1) := by
    rw [Cursor.advance_advance, List.length_append, List.length_cons, Nat.add_assoc, Nat.add_comm 1]
    congr 1
  obtain ⟨s₁, d₁, hfirst⟩ := item_of_runItems hrun
  induction h generalizing s c c₀ d s₁ d₁ with
  | last htexts =>
      obtain ⟨hd₁, hnew⟩ := hitem.spaced hsolid htexts hc hc₀ hclosing hfirst
      rw [runItems_closing hfirst hd₁ hc₀] at hrun
      cases hrun
      refine ⟨rfl, fun {c' c₀' rest'} hc' hc₀' => ?_⟩
      obtain ⟨d', hfirst', hd'⟩ := hnew hc' hc₀' hclosing
      exact runItems_closing hfirst' hd' hc₀'
  | behind htexts hpadded =>
      obtain ⟨hd₁, hnew⟩ := hitem.spaced hsolid htexts hc hc₀ hclosing hfirst
      rw [runItems_closing hfirst hd₁ hc₀] at hrun
      cases hrun
      refine ⟨rfl, fun {c' c₀' rest'} hc' hc₀' => ?_⟩
      obtain ⟨d', hfirst', hd'⟩ := hnew hc' (hassoc hc₀') hcomma
      obtain ⟨d'', hlast, hd''⟩ :=
        hextra.padded hsolid' hpadded rfl (rest_past (hassoc hc₀')) hclosing _
      rw [runItems_comma hfirst' hd' (hassoc hc₀'),
        runItems_closing hlast hd'' (rest_past (hassoc hc₀')), hjoin]
  | more htexts _ ih =>
      obtain ⟨hd₁, hnew⟩ := hitem.spaced hsolid htexts hc (hassoc hc₀) hcomma hfirst
      rw [runItems_comma hfirst hd₁ (hassoc hc₀)] at hrun
      obtain ⟨s₂, d₂, hsecond⟩ := item_of_runItems hrun
      obtain ⟨rfl, hrest⟩ := ih rfl (rest_past (hassoc hc₀)) hrun _ _ hsecond
      refine ⟨hjoin _ _ _, fun {c' c₀' rest'} hc' hc₀' => ?_⟩
      obtain ⟨d', hfirst', hd'⟩ := hnew hc' (hassoc hc₀') hcomma
      rw [runItems_comma hfirst' hd' (hassoc hc₀'), hrest rfl (rest_past (hassoc hc₀')), hjoin]
  | before hpadded _ ih =>
      obtain ⟨rfl, hrest⟩ := ih hc hc₀ hrun _ _ hfirst
      refine ⟨rfl, fun {c' c₀' rest'} hc' hc₀' => ?_⟩
      obtain ⟨d', hfirst', hd'⟩ := hextra.padded hsolid' hpadded hc' (hassoc hc₀') hcomma s
      rw [runItems_comma hfirst' hd' (hassoc hc₀'), hrest rfl (rest_past (hassoc hc₀')), hjoin]

theorem begins_of_solid {before bs : Bytes} (hbefore : Gap before) (h : Solid bs) (tail : Bytes) :
    Begins (before ++ (bs ++ tail)) := by
  obtain ⟨b, more, rfl, hb⟩ := h
  exact ⟨before, _, hbefore, rfl, b, _, rfl, hb⟩

theorem Begins.append (h : Begins text) (more : Bytes) : Begins (text ++ more) := by
  obtain ⟨gap, core, hgap, rfl, hcore⟩ := h
  rw [List.append_assoc]
  exact begins_of_solid hgap hcore more

theorem Padded.begins (h : Padded N text) (hsolid : ∀ {bs}, N bs → Solid bs) : Begins text := by
  cases h with
  | mk hbefore hN _ => exact begins_of_solid hbefore (hsolid hN) _

theorem Rows.begins (h : Rows R N text text') (hsolid : ∀ {bs bs'}, R bs bs' → Solid bs ∧ Solid bs')
    (hsolid' : ∀ {bs}, N bs → Solid bs) : Begins text ∧ Begins text' := by
  have hspaced {item item' : Bytes} (h : Spaced R item item') : Begins item ∧ Begins item' := by
    cases h with
    | mk hbefore hR _ =>
        exact ⟨begins_of_solid hbefore (hsolid hR).1 _, begins_of_solid hbefore (hsolid hR).2 _⟩
  induction h with
  | last h => exact hspaced h
  | behind h _ => exact ⟨(hspaced h).1, (hspaced h).2.append _⟩
  | more h _ _ => exact ⟨(hspaced h).1.append _, (hspaced h).2.append _⟩
  | before hextra _ ih => exact ⟨ih.1, (hextra.begins hsolid').append _⟩

theorem Padded.gap {gap : Bytes} (h : Padded N text) (hgap : Gap gap) : Padded N (gap ++ text) := by
  cases h with
  | @mk before bs after hbefore hN hafter =>
      rw [← List.append_assoc]
      exact .mk (hgap.append hbefore) hN hafter

/-- Lists are carried between their brackets, whatever follows. -/
theorem carries_lists (hitem : Carries Fenced R item item)
    (hsolid : ∀ {bs bs'}, R bs bs' → Solid bs ∧ Solid bs') (hextra : Skims N item)
    (hsolid' : ∀ {bs}, N bs → Solid bs) :
    Carries F (Lists bracket R N) (expect bracket.opening >>= fun _ => list bracket.closing item)
      (expect bracket.opening >>= fun _ => list bracket.closing item) := by
  intro bs bs' rest s s' u c d hlists hc _ hrun
  have hcons {inner tail : Bytes} {c : Cursor}
      (hc : c.skipSpace.rest = bracket.opening :: (inner ++ [bracket.closing]) ++ tail) :
      c.skipSpace.rest = bracket.opening :: (inner ++ bracket.closing :: tail) := by
    rw [hc]
    simp
  have hend (c : Cursor) (inner : Bytes) : (c.skipSpace.advance 1).advance (inner.length + 1) =
      c.skipSpace.advance (bracket.opening :: (inner ++ [bracket.closing])).length := by
    rw [Cursor.advance_advance, List.length_cons, List.length_append, Nat.add_comm 1]
    rfl
  have hskip (c : Cursor) : c.skipSpace.skipSpace = c.skipSpace := c.skipSpace_skipSpace
  have hempty {gap tail : Bytes} {c : Cursor} (hgap : Gap gap)
      (hc : c.skipSpace.rest = bracket.opening :: (gap ++ [bracket.closing]) ++ tail) (s : σ) :
      (expect bracket.opening >>= fun _ => list bracket.closing item).run s c =
        .ok () s (c.skipSpace.advance (bracket.opening :: (gap ++ [bracket.closing])).length) := by
    rw [opened_run (hcons hc), runList_of_gap hgap (Cursor.rest_advance_one (hcons hc)), hend]
  cases hlists with
  | empty hgap =>
      rw [hempty hgap hc] at hrun
      cases hrun
      exact ⟨rfl, fun c' rest' hc' _ => hempty hgap hc' _⟩
  | alone hgap hpadded =>
      rw [hempty hgap hc] at hrun
      cases hrun
      refine ⟨rfl, fun c' rest' hc' _ => ?_⟩
      have hin := Cursor.rest_advance_one (hcons hc')
      obtain ⟨d', hlast, hd'⟩ :=
        hextra.padded hsolid' hpadded (hskip _) hin (.inr ⟨bracket, rfl⟩) s
      rw [opened_run (hcons hc'), runList_of_begins (hpadded.begins hsolid') hin,
        runItems_closing hlast hd' hin, hend]
  | full hrows =>
      obtain ⟨hbegins, hbegins'⟩ := hrows.begins hsolid hsolid'
      have hin := Cursor.rest_advance_one (hcons hc)
      rw [opened_run (hcons hc), runList_of_begins hbegins hin] at hrun
      obtain ⟨rfl, hnew⟩ :=
        runItems_rows hitem hsolid hextra hsolid' hrows (hskip _) hin hrun
      refine ⟨hend _ _, fun c' rest' hc' _ => ?_⟩
      have hin' := Cursor.rest_advance_one (hcons hc')
      rw [opened_run (hcons hc'), runList_of_begins hbegins' hin', hnew (hskip _) hin', hend]

end Rows

/-! ### Members -/

/-- Two members with one key, whose values are in `V`. -/
inductive Keyed (V : Bytes → Bytes → Bytes → Prop) : Bytes → Bytes → Prop
  | mk {key before after value value' : Bytes} (hkey : Sealed key) (hbefore : Gap before)
      (hafter : Gap after) (h : V key value value') :
      Keyed V (Byte.quote :: (key ++ Byte.quote :: (before ++ Byte.colon :: (after ++ value))))
        (Byte.quote :: (key ++ Byte.quote :: (before ++ Byte.colon :: (after ++ value'))))

section Members

variable {V : Bytes → Bytes → Bytes → Prop} {N : Bytes → Bytes → Prop} {member : Bytes → Scan σ Unit}
  {bs bs' : Bytes}

theorem Keyed.solid (h : Keyed V bs bs') : Solid bs ∧ Solid bs' := by
  cases h
  exact ⟨⟨_, _, rfl, by decide, by decide⟩, ⟨_, _, rfl, by decide, by decide⟩⟩

theorem solid_of_entry {key : Bytes} (h : Entry N key bs) : Solid bs := by
  obtain ⟨-, ⟨-, -, -⟩⟩ := h
  exact ⟨_, _, rfl, by decide, by decide⟩

theorem keyed_of_entry {key : Bytes} (h : Entry N key bs) (hV : ∀ {value}, N key value → V key value value) :
    Keyed V bs bs := by
  obtain ⟨hkey, hbefore, hafter, hvalue⟩ := h
  exact .mk hkey hbefore hafter (hV hvalue)

theorem carries_keyed (h : ∀ key, Carries F (V key) (member key) (member key))
    (hsolid : ∀ {key bs bs'}, V key bs bs' → Solid bs ∧ Solid bs') :
    Carries F (Keyed V) (keyed member) (keyed member) := by
  intro bs bs' rest s s' u c d hmember hc hrest hrun
  cases hmember with
  | mk hkey hbefore hafter hV =>
      obtain ⟨e, hrun', hin, hend, -⟩ := keyed_value hkey hbefore hafter (hsolid hV).1 hc
      rw [hrun'] at hrun
      obtain ⟨rfl, hnew⟩ := h _ hV hin hrest hrun
      refine ⟨hend, fun c' rest' hc' hrest' => ?_⟩
      obtain ⟨e', hrun', hin', hend', -⟩ := keyed_value hkey hbefore hafter (hsolid hV).2 hc'
      rw [hrun', hnew hin' hrest', hend']

theorem skims_keyed (h : ∀ key, Skims (N key) (member key)) (hsolid : ∀ {key bs}, N key bs → Solid bs) :
    Skims (fun bs => ∃ key, Entry N key bs) (keyed member) := by
  rintro bs rest s c ⟨key, hkey, hbefore, hafter, hN⟩ hc hrest
  obtain ⟨e, hrun, hin, hend, -⟩ := keyed_value hkey hbefore hafter (hsolid hN) hc
  rw [hrun, h key hN hin hrest, hend]

end Members

/-! ### Lists that are the same -/

section Diagonal

variable {Q : α → Bytes → Prop} {N : Bytes → Prop} {items : List α} {text : Bytes} {bracket : Bracket}

theorem rows_of_items (hQ : ∀ {a bs}, Q a bs → R bs bs) (h : Items Q items text) : Rows R N text text := by
  induction h with
  | last hbefore h hafter => exact .last (.mk hbefore (hQ h) hafter)
  | @more a items before bs after rest hbefore h hafter _ ih =>
      have hspaced : Spaced R (before ++ (bs ++ after)) (before ++ (bs ++ after)) :=
        .mk hbefore (hQ h) hafter
      have hmore := Rows.more hspaced ih
      rw [List.append_assoc, List.append_assoc] at hmore
      exact hmore

theorem lists_of_listing (hQ : ∀ {a bs}, Q a bs → R bs bs) (h : Listing bracket Q items text) :
    Lists bracket R N text text := by
  cases h with
  | empty hgap => exact .empty hgap
  | full hitems => exact .full (rows_of_items hQ hitems)

end Diagonal

end Scan

end Intake.Record
