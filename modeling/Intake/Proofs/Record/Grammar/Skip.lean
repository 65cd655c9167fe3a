import Intake.Proofs.Record.Grammar.Token
import Intake.Proofs.Record.Nest
import Intake.Proofs.Record.Steady.Skip

/-!
# Skipped values are loose text

A skipped value is read token by token, and what has been read of it is not a value before the last
bracket is closed. What the text that is left still has to do is to close the open brackets one after
the other, with loose text in front of each: `Closes` says so, and every token that is read takes
it one step back.
-/

namespace Intake.Record

variable {limit : Nat} {nest nest' : Nest} {opened : List Bracket} {c d : Cursor}

/-! ### Tokens -/

theorem bracket_of_opened? {b : UInt8} {bracket : Bracket} (h : Bracket.opened? b = some bracket) :
    b = bracket.opening := by
  unfold Bracket.opened? at h
  split at h
  next hb =>
    cases h
    exact hb
  split at h
  next hb =>
    cases h
    exact hb
  · cases h

theorem bracket_of_closed? {b : UInt8} {bracket : Bracket} (h : Bracket.closed? b = some bracket) :
    b = bracket.closing := by
  unfold Bracket.closed? at h
  split at h
  next hb =>
    cases h
    exact hb
  split at h
  next hb =>
    cases h
    exact hb
  · cases h

theorem bare_of_word {b : UInt8} {rest : Bytes} {u : Unit} (hc : c.rest = b :: rest)
    (hb : Stream.opens b = false) (h : word c = .ok (u, d)) :
    ∃ bs, c.rest = bs ++ d.rest ∧ Bare bs ∧ ∀ a ∈ d.rest.head?, endsWord a = true := by
  have hsplit : c.rest = (c.rest.takeWhile fun b => !endsWord b) ++
      (c.skipWhile fun b => !endsWord b).rest := List.takeWhile_append_dropWhile.symm
  have hhead := List.head?_dropWhile_not (fun b => !endsWord b) c.rest
  simp only [word] at h
  split at h
  · cases h
  next a tail hafter =>
  split at h
  · cases h
  next hmove =>
  cases h
  have hdrop : c.rest.dropWhile (fun b => !endsWord b) = a :: tail := hafter
  rw [hdrop] at hhead
  refine ⟨_, hsplit, ⟨fun a ha => ?_, ?_⟩, fun a' ha => ?_⟩
  · simpa using List.all_eq_true.1 List.all_takeWhile a ha
  · cases hends : endsWord b with
    | true => exact absurd (by rw [Cursor.skipWhile_of_neg hc (by simp [hends])]) hmove
    | false =>
        refine ⟨b, rest.takeWhile fun b => !endsWord b, ?_, hb⟩
        rw [hc, List.takeWhile_cons_of_pos (by simp [hends])]
  · rw [hafter] at ha
    cases ha
    simpa using hhead

/-- What a token that is stepped over does to the open brackets. -/
inductive Token (limit : Nat) (nest : Nest) (c : Cursor) : Nest → Cursor → Prop
  | value {bs : Bytes} {d : Cursor} (hc : c.rest = bs ++ d.rest) (hvalue : ∀ n, Loose .value n bs)
      (hends : Bare bs → ∀ b ∈ d.rest.head?, endsWord b = true) : Token limit nest c nest d
  | separator {b : UInt8} {d : Cursor} (hc : c.rest = b :: d.rest) (hb : isFiller b)
      (hdepth : nest.depth ≠ 0) : Token limit nest c nest d
  | enter (bracket : Bracket) {d : Cursor} (hc : c.rest = bracket.opening :: d.rest)
      (hdepth : nest.depth ≠ limit) : Token limit nest c (nest.enter bracket) d
  | leave (bracket : Bracket) {d : Cursor} (hc : c.rest = bracket.closing :: d.rest)
      (hin : nest.innermost? = some bracket) : Token limit nest c nest.leave d

theorem not_bare_quote (bs : Bytes) : ¬ Bare (Byte.quote :: bs) := fun h =>
  absurd (h.1 Byte.quote (List.mem_cons_self ..)) (by decide)

theorem token_of_skipToken (h : skipToken limit nest c = .ok (nest', d)) :
    Token limit nest c nest' d := by
  unfold skipToken at h
  split at h
  · cases h
  next b rest hc =>
  have hone : (c.advance 1).rest = rest := Cursor.rest_advance_one hc
  split at h
  next hquote =>
    split at h
    · cases h
    next key after hraw =>
      cases h
      have hskip : c.skipSpace = c := Cursor.skipWhile_of_neg hc (by rw [hquote]; rfl)
      obtain ⟨hrest, hkey⟩ := rest_of_rawString hraw
      have hsplit : c.rest = (Byte.quote :: (key ++ [Byte.quote])) ++ d.rest := by
        rw [hskip] at hrest
        rw [hrest]
        simp
      exact .value hsplit (fun _ => .string hkey) fun hbare => absurd hbare (not_bare_quote _)
  next hquote =>
  split at h
  next bracket hopen =>
    split at h
    · cases h
    next hdepth =>
      cases h
      exact .enter bracket (by rw [hc, hone, bracket_of_opened? hopen]) hdepth
  next bracket hopen hclose =>
    split at h
    next hin =>
      cases h
      exact .leave bracket (by rw [hc, hone, bracket_of_closed? hclose]) hin
    · cases h
  next hopen hclose =>
    split at h
    next hsep =>
      split at h
      · cases h
      next hdepth =>
        cases h
        refine .separator (by rw [hc, hone]) ?_ hdepth
        rcases hsep with rfl | rfl <;> rfl
    next hsep =>
      split at h
      · cases h
      next hword =>
        cases h
        have hopens : Stream.opens b = false := by simpa using not_opens_of_opened? hopen
        obtain ⟨bs, hbs, hbare, hends⟩ := bare_of_word hc hopens hword
        exact .value hbs (fun _ => .bare hbare) fun _ => hends

/-! ### Values -/

/-- Text that closes the open brackets, the first of the list first, while at most `limit` are open at
once. -/
def Closes (limit : Nat) : List Bracket → Bytes → Prop
  | [], bs => bs = []
  | bracket :: outer, bs => ∃ inner tail, bs = inner ++ bracket.closing :: tail ∧
      Loose .inside (limit - (outer.length + 1)) inner ∧ Closes limit outer tail

/-- What is left of a skipped value: a value as long as no bracket is open, else what closes those that
are. -/
def Remainder (limit : Nat) : List Bracket → Bytes → Prop
  | [], bs => ∃ gap value, Gap gap ∧ bs = gap ++ value ∧ Loose .value limit value
  | opened, bs => Closes limit opened bs

theorem Loose.gap {n : Nat} {gap bs : Bytes} (hgap : Gap gap) (h : Loose .inside n bs) :
    Loose .inside n (gap ++ bs) := by
  induction gap with
  | nil => exact h
  | cons b gap ih =>
      have hb : isFiller b := by simp [isFiller, hgap b (List.mem_cons_self ..)]
      exact .filler hb (ih fun a ha => hgap a (List.mem_cons_of_mem _ ha))

theorem Remainder.gap {gap bs : Bytes} (hgap : Gap gap) (h : Remainder limit opened bs) :
    Remainder limit opened (gap ++ bs) := by
  cases opened with
  | nil =>
      obtain ⟨front, value, hfront, rfl, hvalue⟩ := h
      exact ⟨gap ++ front, value, hgap.append hfront, (List.append_assoc ..).symm, hvalue⟩
  | cons bracket outer =>
      obtain ⟨inner, tail, rfl, hinner, htail⟩ := h
      exact ⟨gap ++ inner, tail, (List.append_assoc ..).symm, hinner.gap hgap, htail⟩

theorem Closes.value {bracket : Bracket} {outer : List Bracket} {value bs : Bytes}
    (hvalue : Loose .value (limit - (outer.length + 1)) value)
    (hends : Bare value → ∀ b ∈ bs.head?, endsWord b = true) (h : Closes limit (bracket :: outer) bs) :
    Closes limit (bracket :: outer) (value ++ bs) := by
  obtain ⟨inner, tail, rfl, hinner, htail⟩ := h
  refine ⟨value ++ inner, tail, (List.append_assoc ..).symm, .cons hvalue (fun hbare b hb => ?_) hinner,
    htail⟩
  apply hends hbare
  cases inner with
  | nil => cases hb
  | cons a inner => exact hb

/-- An opening bracket in front of what closes it makes a value, or one more part of what closes the
bracket around it. -/
theorem Closes.enter {bracket : Bracket} {bs : Bytes} (hroom : opened.length < limit)
    (h : Closes limit (bracket :: opened) bs) : Remainder limit opened (bracket.opening :: bs) := by
  obtain ⟨inner, tail, rfl, hinner, htail⟩ := h
  have hdepth : limit - (opened.length + 1) + 1 = limit - opened.length := by omega
  have hvalue := Loose.nested bracket hinner
  rw [hdepth] at hvalue
  have hsplit : bracket.opening :: (inner ++ bracket.closing :: tail) =
      bracket.opening :: (inner ++ [bracket.closing]) ++ tail := by simp
  rw [hsplit]
  cases opened with
  | nil =>
      obtain rfl : tail = [] := htail
      exact ⟨[], _, .nil, (List.append_nil _).trans (List.nil_append _).symm, hvalue⟩
  | cons around outer =>
      have hbracket : ¬ Bare (bracket.opening :: (inner ++ [bracket.closing])) := by
        rintro ⟨-, b, rest, hcons, hb⟩
        obtain ⟨rfl, -⟩ := List.cons.inj hcons
        rw [bracket.opens_opening] at hb
        cases hb
      exact Closes.value hvalue (fun hbare => absurd hbare hbracket) htail

/-- One token takes what is left of a skipped value one step back. -/
theorem Token.remainder (htoken : Token limit nest c nest' d) (htracks : nest.Tracks opened)
    (hmax : limit ≤ Nest.maxDepth) (hopened : opened.length ≤ limit) :
    ∃ opened', nest'.Tracks opened' ∧ opened'.length ≤ limit ∧
      ∀ {tail rest : Bytes}, d.rest = tail ++ rest → Closes limit opened' tail →
        ∃ bs, c.rest = bs ++ rest ∧ Remainder limit opened bs := by
  have hdepth := htracks.depth
  cases htoken with
  | @value bs _ hc hvalue hends =>
      refine ⟨opened, htracks, hopened, fun {tail rest} hd htail => ⟨bs ++ tail, ?_, ?_⟩⟩
      · rw [hc, hd, List.append_assoc]
      · cases opened with
        | nil =>
            obtain rfl : tail = [] := htail
            exact ⟨[], bs, .nil, List.append_nil bs, hvalue limit⟩
        | cons bracket outer =>
            refine Closes.value (hvalue _) (fun hbare b hb => hends hbare b ?_) htail
            rw [hd, List.head?_append, hb]
            rfl
  | @separator b _ hc hb hin =>
      refine ⟨opened, htracks, hopened, fun {tail rest} hd htail => ⟨b :: tail, ?_, ?_⟩⟩
      · rw [hc, hd, List.cons_append]
      · cases opened with
        | nil => exact absurd hdepth hin
        | cons bracket outer =>
            obtain ⟨inner, tail, rfl, hinner, htail⟩ := htail
            exact ⟨b :: inner, tail, rfl, .filler hb hinner, htail⟩
  | enter bracket hc hroom =>
      have hlt : opened.length < limit := Nat.lt_of_le_of_ne hopened (hdepth ▸ hroom)
      have hbits : nest.depth < Nest.maxDepth := by omega
      refine ⟨bracket :: opened, htracks.enter hbits bracket, hlt, fun {tail rest} hd htail =>
        ⟨bracket.opening :: tail, ?_, htail.enter hlt⟩⟩
      rw [hc, hd, List.cons_append]
  | leave bracket hc hin =>
      cases opened with
      | nil =>
          have hpos := Nest.depth_pos hin
          rw [hdepth] at hpos
          exact absurd hpos (Nat.lt_irrefl 0)
      | cons innermost outer =>
          obtain rfl : innermost = bracket := Option.some.inj (htracks.innermost?.symm.trans hin)
          refine ⟨outer, htracks.leave, Nat.le_of_succ_le hopened, fun {tail rest} hd htail =>
            ⟨innermost.closing :: tail, ?_, [], tail, rfl, .nil, htail⟩⟩
          rw [hc, hd, List.cons_append]

/-- A value that is skipped is loose text, and what is read of it closes the open brackets. -/
theorem remainder_of_skipWithin {u : Unit} (h : skipWithin limit nest c = .ok (u, d))
    (htracks : nest.Tracks opened) (hmax : limit ≤ Nest.maxDepth) (hopened : opened.length ≤ limit) :
    ∃ bs, c.rest = bs ++ d.rest ∧ Remainder limit opened bs := by
  fun_induction skipWithin limit nest c generalizing opened with
  | case1 => cases h
  | case2 nest c nest' after htoken _ hdone =>
      cases h
      obtain ⟨gap, hgap, hc⟩ := exists_gap c
      obtain ⟨opened', htracks', -, hback⟩ :=
        (token_of_skipToken htoken).remainder htracks hmax hopened
      obtain rfl : opened' = [] := List.eq_nil_of_length_eq_zero (htracks'.depth ▸ hdone)
      obtain ⟨bs, hbs, hremainder⟩ := hback (List.nil_append _).symm rfl
      exact ⟨gap ++ bs, by rw [hc, hbs, List.append_assoc], hremainder.gap hgap⟩
  | case3 nest c nest' after htoken _ hmore ih =>
      obtain ⟨gap, hgap, hc⟩ := exists_gap c
      obtain ⟨opened', htracks', hopened', hback⟩ :=
        (token_of_skipToken htoken).remainder htracks hmax hopened
      obtain ⟨tail, htail, hcloses⟩ := ih h htracks' hopened'
      have hclose : Closes limit opened' tail := by
        cases opened' with
        | nil => exact absurd htracks'.depth hmore
        | cons bracket outer => exact hcloses
      obtain ⟨bs, hbs, hremainder⟩ := hback htail hclose
      exact ⟨gap ++ bs, by rw [hc, hbs, List.append_assoc], hremainder.gap hgap⟩

theorem nestingLimit_le (maxNesting : Nat) : nestingLimit maxNesting ≤ Nest.maxDepth := by
  simp only [nestingLimit, Nest.maxDepth]
  omega

theorem skippedText_of_skipValue {options : Options} {u : Unit}
    (h : skipValue options.maxNesting c = .ok (u, d)) :
    ∃ gap bs, Gap gap ∧ c.rest = gap ++ (bs ++ d.rest) ∧ SkippedText options bs := by
  obtain ⟨bs, hbs, gap, value, hgap, rfl, hvalue⟩ := remainder_of_skipWithin h Nest.tracks_nil
    (nestingLimit_le _) (Nat.zero_le _)
  exact ⟨gap, value, hgap, by rw [hbs, List.append_assoc], hvalue⟩

end Intake.Record
