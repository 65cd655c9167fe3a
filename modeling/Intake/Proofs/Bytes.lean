import Intake.Bytes

/-!
# Finding a separator, and finding a word

`Bytes.cut` finds the first occurrence of a separator if there is one. What stands in front of it does
not depend on the bytes that follow it. Values that have words are found by them, and by nothing else.
-/

namespace Intake.Bytes

/-- The first occurrence of the separator in `bs` has `before` in front of it. -/
structure Leads (before separator bs : Bytes) : Prop where
  occurs : before ++ separator <+: bs
  first : ∀ {earlier}, earlier ++ separator <+: bs → before.length ≤ earlier.length

variable {bs before after separator : Bytes}

/-- A separator that is not at the front occurs further on. -/
theorem prefix_cons_iff {b : UInt8} {rest : Bytes} (h : ¬ separator <+: b :: rest) :
    before ++ separator <+: b :: rest ↔ ∃ tail, before = b :: tail ∧ tail ++ separator <+: rest := by
  cases before with
  | nil =>
      refine ⟨fun hp => absurd hp h, ?_⟩
      rintro ⟨tail, ht, -⟩
      cases ht
  | cons a tail =>
      rw [List.cons_append, List.cons_prefix_cons]
      constructor
      · rintro ⟨rfl, hp⟩
        exact ⟨tail, rfl, hp⟩
      · rintro ⟨_, ht, hp⟩
        cases ht
        exact ⟨rfl, hp⟩

theorem occurs_iff : separator <:+: bs ↔ ∃ before, before ++ separator <+: bs :=
  ⟨fun ⟨before, after, h⟩ => ⟨before, after, h⟩, fun ⟨before, after, h⟩ => ⟨before, after, h⟩⟩

theorem cut_spec (bs separator : Bytes) :
    match cut bs separator with
    | some (before, _) => Leads before separator bs
    | none => ¬ separator <:+: bs := by
  induction bs with
  | nil =>
      by_cases hs : separator = []
      · subst hs
        exact ⟨⟨[], rfl⟩, fun _ => Nat.zero_le _⟩
      · simpa only [cut, if_neg hs, List.infix_nil] using hs
  | cons b rest ih =>
      unfold cut
      by_cases hp : separator.isPrefixOf (b :: rest)
      · rw [if_pos hp]
        exact ⟨List.isPrefixOf_iff_prefix.1 hp, fun _ => Nat.zero_le _⟩
      · rw [if_neg hp]
        rw [List.isPrefixOf_iff_prefix] at hp
        cases hc : cut rest separator with
        | none =>
            rw [hc] at ih
            intro hin
            obtain ⟨before, hbefore⟩ := occurs_iff.1 hin
            obtain ⟨tail, -, htail⟩ := (prefix_cons_iff hp).1 hbefore
            exact ih (occurs_iff.2 ⟨tail, htail⟩)
        | some parts =>
            rw [hc] at ih
            refine ⟨(prefix_cons_iff hp).2 ⟨parts.1, rfl, ih.occurs⟩, fun hearlier => ?_⟩
            obtain ⟨tail, rfl, htail⟩ := (prefix_cons_iff hp).1 hearlier
            exact Nat.succ_le_succ (ih.first htail)

theorem leads_of_cut (h : cut bs separator = some (before, after)) : Leads before separator bs := by
  have hspec := cut_spec bs separator
  rw [h] at hspec
  exact hspec

theorem cut_of_absent (h : ¬ separator <:+: bs) : cut bs separator = none := by
  have hspec := cut_spec bs separator
  cases hc : cut bs separator with
  | none => rfl
  | some parts =>
      rw [hc] at hspec
      exact absurd (occurs_iff.2 ⟨_, hspec.occurs⟩) h

theorem Leads.unique {other : Bytes} (h : Leads before separator bs) (h' : Leads other separator bs) :
    before = other := by
  have hlen : before.length = other.length := Nat.le_antisymm (h.first h'.occurs) (h'.first h.occurs)
  have hp := List.prefix_of_prefix_length_le ((List.prefix_append ..).trans h.occurs)
    ((List.prefix_append ..).trans h'.occurs) (Nat.le_of_eq hlen)
  exact hp.eq_of_length hlen

theorem Leads.cut (h : Leads before separator bs) :
    ∃ after, cut bs separator = some (before, after) := by
  have hspec := cut_spec bs separator
  cases hc : Bytes.cut bs separator with
  | none =>
      rw [hc] at hspec
      exact absurd (occurs_iff.2 ⟨_, h.occurs⟩) hspec
  | some parts =>
      rw [hc] at hspec
      obtain rfl := hspec.unique h
      exact ⟨parts.2, rfl⟩

theorem exists_leads (h : separator <:+: bs) : ∃ before, Leads before separator bs := by
  have hspec := cut_spec bs separator
  cases hc : cut bs separator with
  | none =>
      rw [hc] at hspec
      exact absurd h hspec
  | some parts =>
      rw [hc] at hspec
      exact ⟨parts.1, hspec⟩

theorem Leads.congr {bs' : Bytes} (h : Leads before separator bs)
    (h' : before ++ separator <+: bs') : Leads before separator bs' := by
  refine ⟨h', fun {earlier} hearlier => Nat.le_of_not_lt fun hlt => ?_⟩
  have hle : (earlier ++ separator).length ≤ (before ++ separator).length := by
    simp only [List.length_append]
    omega
  have hfirst := h.first ((List.prefix_of_prefix_length_le hearlier h' hle).trans h.occurs)
  omega

theorem Leads.drop {n : Nat} (h : Leads before separator bs) (hn : n ≤ before.length) :
    Leads (before.drop n) separator (bs.drop n) := by
  obtain ⟨after, rfl⟩ := h.occurs
  have hdrop : (before ++ separator ++ after).drop n = before.drop n ++ separator ++ after := by
    rw [List.append_assoc, List.drop_append_of_le_length hn, List.append_assoc]
  rw [hdrop]
  refine ⟨List.prefix_append .., fun {earlier} hearlier => ?_⟩
  have hfirst : before.length ≤ (before.take n ++ earlier).length := by
    apply h.first
    obtain ⟨tail, htail⟩ := hearlier
    refine ⟨tail, ?_⟩
    rw [List.append_assoc, List.append_assoc, ← List.append_assoc earlier, htail,
      List.append_assoc, ← List.append_assoc (before.take n), List.take_append_drop,
      List.append_assoc]
  rw [List.length_append, List.length_take, Nat.min_eq_left hn] at hfirst
  rw [List.length_drop]
  omega

/-! ### Words -/

/-- In a list where each value is found by its own word, no other word finds one. -/
theorem find?_word_eq_some_iff {α : Type} {values : List α} {word : α → Bytes}
    (hfound : ∀ a, values.find? (fun b => word b == word a) = some a) {a : α} :
    values.find? (fun b => word b == bs) = some a ↔ bs = word a := by
  constructor
  · intro h
    have hword := List.find?_some h
    exact (beq_iff_eq.1 hword).symm
  · rintro rfl
    exact hfound a

end Intake.Bytes
