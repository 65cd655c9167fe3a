import Intake.Proofs.Bytes

/-!
# Parts between separators

What it means for a text to be made of parts: cutting at the first occurrence of a byte, splitting at
all of them, and the lines of a head.
-/

namespace Intake.Bytes

variable {bs before after : Bytes} {b : UInt8}

theorem singleton_infix_iff : [b] <:+: bs ↔ b ∈ bs := by
  constructor
  · exact fun h => h.subset (List.mem_singleton_self b)
  · intro h
    obtain ⟨before, after, rfl⟩ := List.append_of_mem h
    exact ⟨before, after, by rw [List.append_assoc, List.singleton_append]⟩

theorem cut_byte_eq_none_iff : cut bs [b] = none ↔ b ∉ bs := by
  rw [← singleton_infix_iff]
  refine ⟨fun h hin => ?_, cut_of_absent⟩
  obtain ⟨before, hbefore⟩ := exists_leads hin
  obtain ⟨after, hcut⟩ := hbefore.cut
  rw [h] at hcut
  cases hcut

/-- The first part has no separator in it. -/
theorem cut_byte_eq_some_iff :
    cut bs [b] = some (before, after) ↔ bs = before ++ b :: after ∧ b ∉ before := by
  have hfront (before after : Bytes) : before ++ [b] ++ after = before ++ b :: after := by
    rw [List.append_assoc, List.singleton_append]
  constructor
  · intro h
    have hspec := cut_spec bs [b]
    rw [h] at hspec
    refine ⟨(eq_of_cut h).trans (hfront before after), fun hin => ?_⟩
    obtain ⟨front, back, rfl⟩ := List.append_of_mem hin
    have hearlier : front ++ [b] <+: bs :=
      ⟨back ++ b :: after, by rw [eq_of_cut h, hfront, hfront, List.append_assoc, List.cons_append]⟩
    have hle := hspec.first hearlier
    simp only [List.length_append, List.length_cons] at hle
    omega
  · rintro ⟨rfl, hnot⟩
    have hleads : Leads before [b] (before ++ b :: after) := by
      refine ⟨⟨after, hfront before after⟩, fun {earlier} hearlier =>
        Nat.le_of_not_lt fun hlt => hnot ?_⟩
      have hearly : earlier ++ [b] <+: before :=
        List.prefix_of_prefix_length_le hearlier (List.prefix_append ..) (by
          rw [List.length_append, List.length_singleton]
          exact hlt)
      exact hearly.subset (List.mem_append_right _ (List.mem_singleton_self b))
    obtain ⟨rest, hcut⟩ := hleads.cut
    have hrest := (eq_of_cut hcut).trans (hfront before rest)
    rw [hcut, (List.cons.inj (List.append_cancel_left hrest)).2]

/-! ### Splitting at every occurrence -/

theorem not_mem_of_mem_splitOn {part : Bytes} (h : part ∈ bs.splitOn b) : b ∉ part := by
  induction bs generalizing part with
  | nil =>
      rw [List.splitOn_nil, List.mem_singleton] at h
      rw [h]
      exact List.not_mem_nil
  | cons a bs ih =>
      rw [List.splitOn_cons_eq_if_modifyHead] at h
      split at h
      next =>
        rcases List.mem_cons.1 h with rfl | h
        · exact List.not_mem_nil
        · exact ih h
      next hne =>
        cases hsplit : bs.splitOn b with
        | nil => exact absurd hsplit (List.splitOn_ne_nil b bs)
        | cons first rest =>
            rw [hsplit, List.modifyHead_cons] at h
            rcases List.mem_cons.1 h with rfl | h
            · intro hmem
              rcases List.mem_cons.1 hmem with rfl | hmem
              · exact hne (beq_self_eq_true _)
              · exact ih (hsplit ▸ List.mem_cons_self) hmem
            · exact ih (hsplit ▸ List.mem_cons_of_mem _ h)

/-- Splitting undoes joining, and gives the only parts that can be joined to the text. -/
theorem splitOn_eq_iff {parts : List Bytes} : bs.splitOn b = parts ↔
    parts ≠ [] ∧ (∀ part ∈ parts, b ∉ part) ∧ [b].intercalate parts = bs := by
  constructor
  · rintro rfl
    exact ⟨List.splitOn_ne_nil b bs, fun part h => not_mem_of_mem_splitOn h, List.intercalate_splitOn b⟩
  · rintro ⟨hne, hparts, rfl⟩
    exact List.splitOn_intercalate b hparts hne

theorem infix_append_cons_left (b : UInt8) (x y : Bytes) : x <:+: x ++ b :: y :=
  (List.prefix_append x _).isInfix

theorem infix_append_cons_right (b : UInt8) (x y : Bytes) : y <:+: x ++ b :: y :=
  ⟨x ++ [b], [], by rw [List.append_nil, List.append_assoc, List.singleton_append]⟩

theorem infix_of_append_cons {x y : Bytes} (hb : b ∉ bs) (h : bs <:+: x ++ b :: y) :
    bs <:+: x ∨ bs <:+: y := by
  obtain ⟨front, back, h⟩ := h
  rcases List.append_eq_append_iff.1 h with ⟨more, rfl, -⟩ | ⟨more, hfront, hback⟩
  · exact .inl ⟨front, more, rfl⟩
  rcases List.append_eq_append_iff.1 hfront with ⟨half, rfl, rfl⟩ | ⟨half, rfl, rfl⟩
  · cases more with
    | nil => exact .inl ⟨front, [], by rw [List.append_nil, List.append_nil]⟩
    | cons a more =>
        cases hback
        exact absurd (List.mem_append_right _ List.mem_cons_self) hb
  · cases half with
    | nil =>
        cases bs with
        | nil => exact .inl (List.nil_infix)
        | cons a bs =>
            cases hback
            exact absurd List.mem_cons_self hb
    | cons a half =>
        cases hback
        exact .inr ⟨half, back, rfl⟩

theorem infix_of_intercalate {parts : List Bytes} (hb : b ∉ bs) (hne : bs ≠ [])
    (h : bs <:+: [b].intercalate parts) : ∃ part ∈ parts, bs <:+: part := by
  induction parts with
  | nil => exact absurd (List.infix_nil.1 h) hne
  | cons part parts ih =>
      cases parts with
      | nil =>
          rw [List.intercalate_singleton] at h
          exact ⟨part, List.mem_singleton_self part, h⟩
      | cons next parts =>
          rw [List.intercalate_cons_cons, List.append_assoc, List.singleton_append] at h
          rcases infix_of_append_cons hb h with h | h
          · exact ⟨part, List.mem_cons_self, h⟩
          · obtain ⟨other, hother, hin⟩ := ih h
            exact ⟨other, List.mem_cons_of_mem _ hother, hin⟩

theorem infix_intercalate {part : Bytes} {parts : List Bytes} (h : part ∈ parts) :
    part <:+: [b].intercalate parts := by
  induction parts with
  | nil => exact absurd h List.not_mem_nil
  | cons first parts ih =>
      cases parts with
      | nil =>
          have hjoin : [b].intercalate [first] = part :=
            List.intercalate_singleton.trans (List.mem_singleton.1 h).symm
          exact hjoin ▸ List.infix_refl part
      | cons next parts =>
          rw [List.intercalate_cons_cons]
          rcases List.mem_cons.1 h with rfl | h
          · rw [List.append_assoc]
            exact (List.prefix_append part _).isInfix
          · exact (ih h).trans (List.suffix_append _ _).isInfix

theorem length_intercalate (b : UInt8) (parts : List Bytes) :
    ([b].intercalate parts).length = parts.flatten.length + (parts.length - 1) := by
  induction parts with
  | nil => rfl
  | cons part parts ih =>
      cases parts with
      | nil =>
          rw [List.intercalate_singleton, List.flatten_cons, List.flatten_nil, List.append_nil]
          rfl
      | cons next parts =>
          rw [List.intercalate_cons_cons, List.length_append, List.length_append, ih]
          simp only [List.flatten_cons, List.length_append, List.length_cons, List.length_nil]
          omega

/-! ### Blanks around a text -/

theorem exists_trim (bs : Bytes) : ∃ left right, bs = left ++ bs.trim ++ right ∧
    (∀ b ∈ left, Byte.isBlank b) ∧ ∀ b ∈ right, Byte.isBlank b := by
  let inner := (bs.dropWhile Byte.isBlank).reverse
  have hinner : inner = inner.takeWhile Byte.isBlank ++ bs.trim.reverse := by
    rw [trim, List.reverse_reverse]
    exact List.takeWhile_append_dropWhile.symm
  refine ⟨bs.takeWhile Byte.isBlank, (inner.takeWhile Byte.isBlank).reverse, ?_,
    List.all_eq_true.1 List.all_takeWhile, fun b hb => ?_⟩
  · have hdrop : bs.dropWhile Byte.isBlank = bs.trim ++ (inner.takeWhile Byte.isBlank).reverse := by
      rw [← List.reverse_reverse (bs.dropWhile Byte.isBlank), ← List.reverse_reverse bs.trim,
        ← List.reverse_append]
      exact congrArg List.reverse hinner
    rw [List.append_assoc, ← hdrop, List.takeWhile_append_dropWhile]
  · exact List.all_eq_true.1 List.all_takeWhile b (List.mem_reverse.1 hb)

theorem dropWhile_of_head {p : UInt8 → Bool} {core rest : Bytes} (hne : core ≠ [])
    (hcore : ∀ b ∈ core, p b = false) : (core ++ rest).dropWhile p = core ++ rest := by
  cases core with
  | nil => exact absurd rfl hne
  | cons b core =>
      have hb : ¬ p b = true := by rw [hcore b List.mem_cons_self]; exact Bool.false_ne_true
      rw [List.cons_append, List.dropWhile_cons_of_neg hb]

/-- A text without blanks is what is left when blanks around it are trimmed. -/
theorem trim_of_solid {left core right : Bytes} (hleft : ∀ b ∈ left, Byte.isBlank b)
    (hright : ∀ b ∈ right, Byte.isBlank b) (hne : core ≠ [])
    (hcore : ∀ b ∈ core, Byte.isBlank b = false) : trim (left ++ core ++ right) = core := by
  have hback : (core ++ right).reverse.dropWhile Byte.isBlank = core.reverse := by
    rw [List.reverse_append, List.dropWhile_append_of_pos fun b hb => hright b (List.mem_reverse.1 hb),
      ← List.append_nil core.reverse]
    exact dropWhile_of_head (fun h => hne (List.reverse_eq_nil_iff.1 h)) fun b hb =>
      hcore b (List.mem_reverse.1 hb)
  rw [trim, List.append_assoc, List.dropWhile_append_of_pos hleft, dropWhile_of_head hne hcore, hback,
    List.reverse_reverse]

/-! ### Lines -/

theorem Leads.absent {separator : Bytes} (h : Leads before separator bs) (hne : separator ≠ []) :
    ¬ separator <:+: before := by
  intro hin
  obtain ⟨earlier, hearlier⟩ := occurs_iff.1 hin
  have hle := h.first (hearlier.trans ((List.prefix_append ..).trans h.occurs))
  have hlength := hearlier.length_le
  have hpos := List.length_pos_iff.2 hne
  rw [List.length_append] at hlength
  omega

theorem lines_eq (bs : Bytes) :
    lines bs =
      match cut bs lineEnd with
      | some (line, rest) => line :: lines rest
      | none => [bs] := by
  fun_induction lines bs with
  | case1 => rfl
  | case2 b =>
      have hshort : ¬ lineEnd <:+: [b] := fun h => absurd h.length_le (by simp [lineEnd])
      rw [cut_of_absent hshort]
  | case3 b c rest h =>
      obtain ⟨rfl, rfl⟩ := h
      rfl
  | case4 b c rest h ih =>
      have hfront : ¬ lineEnd.isPrefixOf (b :: c :: rest) := by
        rw [List.isPrefixOf_iff_prefix, lineEnd, List.cons_prefix_cons, List.cons_prefix_cons]
        rintro ⟨rfl, rfl, -⟩
        exact h ⟨rfl, rfl⟩
      have hcut : cut (b :: c :: rest) lineEnd =
          (cut (c :: rest) lineEnd).map fun parts => (b :: parts.1, parts.2) := if_neg hfront
      rw [ih, hcut]
      cases cut (c :: rest) lineEnd <;> rfl

/-- No line end stands across the place where one begins. -/
theorem lines_append (first rest : Bytes) :
    lines (first ++ (lineEnd ++ rest)) = lines first ++ lines rest := by
  fun_induction lines first with
  | case1 => rfl
  | case2 b =>
      have hcr : ¬ (b = Byte.carriageReturn ∧ Byte.carriageReturn = Byte.lineFeed) := fun h =>
        absurd h.2 (by decide)
      show lines (b :: Byte.carriageReturn :: Byte.lineFeed :: rest) = _
      rw [lines, if_neg hcr]
      rfl
  | case3 b c first h ih =>
      rw [List.cons_append, List.cons_append, lines, if_pos h, ih, List.cons_append]
  | case4 b c first h ih =>
      have hne : lines (c :: first) ≠ [] := by
        rw [lines_eq]
        split <;> exact List.cons_ne_nil _ _
      rw [List.cons_append, List.cons_append, lines, if_neg h, ← List.cons_append, ih]
      cases hlines : lines (c :: first) with
      | nil => exact absurd hlines hne
      | cons line lines => rfl

theorem lines_of_absent (h : ¬ lineEnd <:+: bs) : lines bs = [bs] := by
  rw [lines_eq, cut_of_absent h]

theorem lines_intercalate {parts : List Bytes} (hne : parts ≠ [])
    (hparts : ∀ part ∈ parts, ¬ lineEnd <:+: part) : lines (lineEnd.intercalate parts) = parts := by
  induction parts with
  | nil => exact absurd rfl hne
  | cons part parts ih =>
      have hpart := lines_of_absent (hparts part List.mem_cons_self)
      cases parts with
      | nil => rw [List.intercalate_singleton, hpart]
      | cons next parts =>
          rw [List.intercalate_cons_cons, List.append_assoc, lines_append, hpart,
            ih (List.cons_ne_nil _ _) fun part h => hparts part (List.mem_cons_of_mem _ h)]
          rfl

/-- Each part but the last is followed by a separator. -/
theorem flatMap_append_prefix_intercalate (separator part : Bytes) (earlier later : List Bytes) :
    earlier.flatMap (· ++ separator) ++ part <+: separator.intercalate (earlier ++ part :: later) := by
  induction earlier with
  | nil =>
      cases later with
      | nil => rw [List.nil_append, List.intercalate_singleton]; exact List.prefix_refl part
      | cons next later =>
          rw [List.nil_append, List.intercalate_cons_cons, List.append_assoc]
          exact List.prefix_append part _
  | cons first earlier ih =>
      have hcons : separator.intercalate (first :: earlier ++ part :: later) =
          first ++ separator ++ separator.intercalate (earlier ++ part :: later) := by
        cases earlier <;> exact List.intercalate_cons_cons
      rw [hcons, List.flatMap_cons, List.append_assoc]
      exact (List.prefix_append_right_inj _).2 ih

theorem leads_lineEnd {line : Bytes} (h : ¬ lineEnd <:+: line) (rest : Bytes) :
    Leads line lineEnd (line ++ (lineEnd ++ rest)) := by
  have hlines := lines_append line rest
  have hspec := cut_spec (line ++ (lineEnd ++ rest)) lineEnd
  rw [lines_of_absent h, lines_eq] at hlines
  split at hlines
  next first _ hcut =>
    rw [hcut] at hspec
    obtain ⟨rfl, -⟩ := List.cons.inj hlines
    exact hspec
  next hcut =>
    rw [hcut] at hspec
    exact absurd ⟨line, rest, List.append_assoc ..⟩ hspec

/-- A line that stands between two line ends of `bs`, or between one of them and an end of `bs`. -/
structure LineOf (bs line : Bytes) : Prop where
  whole : ¬ lineEnd <:+: line
  stands : ∃ before after, bs = before ++ (line ++ after) ∧
    (before = [] ∨ lineEnd <:+ before) ∧ (after = [] ∨ lineEnd <+: after)

theorem lineOf_of_mem {line : Bytes} (h : line ∈ lines bs) : LineOf bs line := by
  induction hlength : bs.length using Nat.strongRecOn generalizing bs with
  | ind n ih =>
      have hspec := cut_spec bs lineEnd
      rw [lines_eq] at h
      split at h
      next first rest hcut =>
        rw [hcut] at hspec
        have hbs := eq_of_cut hcut
        rcases List.mem_cons.1 h with rfl | h
        · refine ⟨hspec.absent (by decide), [], lineEnd ++ rest, ?_, .inl rfl,
            .inr (List.prefix_append ..)⟩
          rw [hbs, List.append_assoc, List.nil_append]
        · have hshorter : rest.length < n := by
            rw [← hlength, hbs]
            simp only [List.length_append, lineEnd, List.length_cons]
            omega
          obtain ⟨hwhole, before, after, rfl, hbefore, hafter⟩ := ih _ hshorter h rfl
          refine ⟨hwhole, first ++ lineEnd ++ before, after, ?_, .inr ?_, hafter⟩
          · rw [hbs, List.append_assoc (first ++ lineEnd)]
          · rcases hbefore with rfl | hbefore
            · rw [List.append_nil]
              exact List.suffix_append ..
            · exact hbefore.trans (List.suffix_append ..)
      next hcut =>
        rw [hcut] at hspec
        rw [List.mem_singleton.1 h]
        exact ⟨hspec, [], [], by rw [List.nil_append, List.append_nil], .inl rfl, .inl rfl⟩

/-- A line that a line end stands in front of. -/
def LaterLine (bs line : Bytes) : Prop :=
  ¬ lineEnd <:+: line ∧ ∃ before after, bs = before ++ (lineEnd ++ (line ++ after)) ∧
    (after = [] ∨ lineEnd <+: after)

theorem laterLine_iff {line : Bytes} : LaterLine bs line ↔ line ∈ (lines bs).tail := by
  constructor
  · rintro ⟨hwhole, before, after, rfl, hafter⟩
    have hfront : line ∈ lines (line ++ after) := by
      rcases hafter with rfl | ⟨rest, rfl⟩
      · rw [List.append_nil, lines_of_absent hwhole]
        exact List.mem_singleton_self line
      · rw [lines_append, lines_of_absent hwhole]
        exact List.mem_append_left _ (List.mem_singleton_self line)
    rw [lines_append]
    cases hbefore : lines before with
    | nil =>
        rw [lines_eq] at hbefore
        split at hbefore <;> cases hbefore
    | cons first rest => exact List.mem_append_right _ hfront
  · intro h
    rw [lines_eq] at h
    split at h
    next first rest hcut =>
      obtain ⟨hwhole, before, after, rfl, hbefore, hafter⟩ := lineOf_of_mem h
      have hbs := eq_of_cut hcut
      rcases hbefore with rfl | ⟨front, rfl⟩
      · refine ⟨hwhole, first, after, ?_, hafter⟩
        rw [hbs, List.append_assoc, List.nil_append]
      · refine ⟨hwhole, first ++ lineEnd ++ front, after, ?_, hafter⟩
        rw [hbs]
        simp only [List.append_assoc]
    · exact absurd h List.not_mem_nil

end Intake.Bytes
