import Intake.Proofs.Request.Query

/-!
# Parameters that fit together

The bits of the parameters say which keys were given, and a value may be trusted where the bit of its
key is set. Texts of different keys never share a byte of the arena: each is written at the cursor, and
what is decoded only to be looked at is given back before the next text is read.

Two keys may set one field, so what is kept from pair to pair is said of fields: a field is proper if
one of its keys was given, and has its default otherwise.
-/

namespace Intake.Request

namespace ParameterKind

/-- The stretch of the arena that a value names, where it is a text. -/
def span? : (kind : ParameterKind) → kind.Value → Option Span
  | text, (span : Span) => some span
  | _, _ => none

/-- What holds of a value that was given. -/
def Proper (arena : Arena) : (kind : ParameterKind) → kind.Value → Prop
  | text, (span : Span) => ∃ bs, bs ≠ [] ∧ arena.get? span = some bs
  | sex, (value : Option Sex) => value ≠ none
  | status, (value : Option Status) => value ≠ none
  | signed, (v : Int) => -(Decimal.signedBound : Int) ≤ v ∧ v < Decimal.signedBound
  | count, (n : Nat) => n < Decimal.unsignedBound
  | code, (n : Nat) => n < 0x10000
  | limit, (n : Nat) => 1 ≤ n ∧ n < Decimal.unsignedBound
  | keys, (listed : GroupKeys) => listed.toList ≠ [] ∧ listed.toList.Nodup
  | flag, _ | order, _ => True

variable {kind : ParameterKind} {raw : Bytes} {arena b : Arena} {value : kind.Value}

theorem span?_default {span : Span} (h : kind.span? kind.default = some span) : span = .absent := by
  cases kind with
  | text => exact (Option.some.inj h).symm
  | sex | status | flag | signed | count | code | limit | order | keys => cases h

theorem kind_of_span? {span : Span} (h : kind.span? value = some span) : kind = .text := by
  cases kind with
  | text => rfl
  | sex | status | flag | signed | count | code | limit | order | keys => cases h

theorem Proper.text {span : Span} (h : kind.Proper arena value) (hspan : kind.span? value = some span) :
    ∃ bs, bs ≠ [] ∧ arena.get? span = some bs := by
  cases kind with
  | text => exact Option.some.inj hspan ▸ h
  | sex | status | flag | signed | count | code | limit | order | keys => cases hspan

theorem Proper.mono (hext : arena.Extends b) (h : kind.Proper arena value) : kind.Proper b value := by
  cases kind with
  | text =>
      obtain ⟨bs, hne, hbs⟩ := h
      exact ⟨bs, hne, Arena.get?_of_extends hext hbs⟩
  | sex | status | flag | signed | count | code | limit | order | keys => exact h

theorem proper_of_means {content : kind.Content} (hmeans : kind.Means raw content)
    (hholds : kind.Holds arena value content) : kind.Proper arena value := by
  cases kind with
  | text => exact ⟨content, hmeans.1, hholds⟩
  | sex | status =>
      cases hholds
      exact Option.some_ne_none _
  | signed | count | code =>
      cases hholds
      exact hmeans.2
  | limit =>
      cases hholds
      exact ⟨hmeans.2.2, hmeans.2.1⟩
  | keys =>
      cases hholds
      exact ⟨hmeans.1, value.nodup⟩
  | flag | order => trivial

end ParameterKind

/-! ### What reading a value does to the arena -/

section Reading

variable {kind : ParameterKind} {raw : Bytes} {arena b : Arena} {o : Overflow}

theorem extends_percent (written : Nat) (arena : Arena) (pos : Nat) (bs : Bytes) :
    arena.Extends (Percent.decodeFrom written arena pos bs).arena := by
  fun_induction Percent.decodeFrom written arena pos bs with
  | case1 | case2 | case3 | case5 | case6 | case7 => exact .refl _
  | case4 _ _ _ _ _ _ _ hpush _ ih => exact (Arena.extends_extend hpush).trans ih
  | case8 _ _ _ _ _ _ _ _ hpush ih => exact (Arena.extends_extend hpush).trans ih

theorem fits_percent (written pos : Nat) (bs : Bytes) (h : arena.Fits) :
    (Percent.decodeFrom written arena pos bs).arena.Fits := by
  fun_induction Percent.decodeFrom written arena pos bs with
  | case1 | case2 | case3 | case5 | case6 | case7 => exact h
  | case4 _ _ _ _ _ _ _ hpush _ ih => exact ih (h.extend hpush)
  | case8 _ _ _ _ _ _ _ _ hpush ih => exact ih (h.extend hpush)

/-- A text that does not fit leaves what fitted. -/
theorem text_overflow (h : Reading.text raw arena = .overflow o b) :
    b = (Percent.decodeFrom 0 arena 0 raw).arena := by
  unfold Reading.text at h
  split at h
  · cases h
  · dsimp only at h
    split at h <;> cases h
    rfl

theorem text_accepted {span : Span} (h : Reading.text raw arena = .accepted span b) :
    span = b.finish arena.cursor := by
  unfold Reading.text at h
  split at h
  · cases h
  · dsimp only at h
    split at h <;> cases h
    rfl

theorem read_overflow (h : kind.read raw arena = .overflow o b) :
    b = (Percent.decodeFrom 0 arena 0 raw).arena := by
  have hofOption {α : Type} {value : Option α} : Reading.ofOption value arena ≠ .overflow o b := by
    cases value <;> exact fun h => by cases h
  have hscratch {α : Type} {inspect : Bytes → Option α}
      (h : Reading.scratch inspect raw arena = .overflow o b) :
      b = (Percent.decodeFrom 0 arena 0 raw).arena := by
    unfold Reading.scratch at h
    split at h
    · exact absurd h hofOption
    · cases h
    next htext =>
      cases h
      exact text_overflow htext
  cases kind with
  | text => exact text_overflow h
  | status =>
      change Reading.scratch (fun text => (Status.ofLiteral? text).map some) raw arena = _ at h
      exact hscratch h
  | keys =>
      change Reading.scratch GroupKeys.parse? raw arena = _ at h
      exact hscratch h
  | sex | flag | signed | count | code | limit | order => exact absurd h hofOption

/-- A value that is accepted is proper, and if it is a text it was written at the cursor. -/
theorem read_accepted (hfits : arena.Fits) {value : kind.Value}
    (h : kind.read raw arena = .accepted value b) :
    arena.Extends b ∧ b.Fits ∧ kind.Proper b value ∧
      ∀ span, kind.span? value = some span → span = b.finish arena.cursor := by
  have hwithin := within_read kind raw arena
  have hanswers := ParameterKind.answers_read hfits kind raw
  rw [h] at hwithin hanswers
  cases hanswers with
  | accepted hmeans hholds hcontents hroom =>
      refine ⟨⟨⟨_, hcontents.symm⟩, hwithin⟩, hroom, ParameterKind.proper_of_means hmeans hholds, ?_⟩
      intro span hspan
      cases kind with
      | text =>
          obtain rfl := Option.some.inj hspan
          exact text_accepted h
      | sex | status | flag | signed | count | code | limit | order | keys => cases hspan

end Reading

/-! ### Values -/

/-- No other key sets the field of a text. -/
def Table.OwnTexts (t : Table) : Prop :=
  ∀ key ∈ t.keys, ∀ other ∈ t.keys, t.kind (t.field key) = .text → t.field key = t.field other →
    key = other

namespace Values

variable {t : Table} {v : Values t} {arena b : Arena}

/-- One of the keys that set the field was given. -/
def IsGiven (v : Values t) (field : t.Field) : Prop := ∃ key, t.field key = field ∧ v.isPresent key

/-- The stretch of the arena that the field of a key names, where it is a text. -/
def span? (v : Values t) (key : t.Key) : Option Span :=
  (t.kind (t.field key)).span? (v.value (t.field key))

/-- What every pair of a query keeps of the values. -/
structure Settled (v : Values t) (arena : Arena) : Prop where
  given : ∀ field, v.IsGiven field → (t.kind field).Proper arena (v.value field)
  default : ∀ field, ¬ v.IsGiven field → v.value field = (t.kind field).default
  within : ∀ field span, (t.kind field).span? (v.value field) = some span → span.Within arena.cursor
  apart : ∀ field other, field ≠ other → ∀ span span',
    (t.kind field).span? (v.value field) = some span →
      (t.kind other).span? (v.value other) = some span' → span.Apart span'

theorem not_isGiven_empty (field : t.Field) : ¬ ({} : Values t).IsGiven field := by
  rintro ⟨key, -, hkey⟩
  rw [isPresent, Nat.zero_testBit] at hkey
  cases hkey

theorem settled_empty (arena : Arena) : ({} : Values t).Settled arena where
  given field h := absurd h (not_isGiven_empty field)
  default _ _ := rfl
  within _ _ h := .inl (ParameterKind.span?_default h)
  apart _ _ _ _ _ h h' := by
    rw [ParameterKind.span?_default h, ParameterKind.span?_default h']
    exact .inl (Nat.le_refl _)

theorem Settled.extend (h : v.Settled arena) (hext : arena.Extends b) : v.Settled b where
  given field hfield := (h.given field hfield).mono hext
  default := h.default
  within field span hspan := (h.within field span hspan).mono hext.cursor_le
  apart := h.apart

theorem isPresent_set (ht : t.Sound) {key : t.Key} {value : t.Value (t.field key)} {other : t.Key} :
    (v.set key value).isPresent other ↔ v.isPresent other ∨ key = other := by
  have hbit : t.bit key = t.bit other ↔ key = other := by
    refine ⟨fun h => ?_, fun h => h ▸ rfl⟩
    have hfind (key : t.Key) : t.keys[t.bit key]? = some key := by
      have hlt : t.bit key < t.keys.length := List.idxOf_lt_length_iff.2 (ht.mem key)
      rw [List.getElem?_eq_getElem hlt]
      exact congrArg some (List.getElem_idxOf hlt)
    have hother := hfind other
    rw [← h, hfind key] at hother
    exact Option.some.inj hother
  rw [isPresent, set, Nat.testBit_or, Nat.one_shiftLeft, Nat.testBit_two_pow, Bool.or_eq_true,
    decide_eq_true_iff, hbit]
  rfl

theorem isGiven_set (ht : t.Sound) {key : t.Key} {value : t.Value (t.field key)} {field : t.Field} :
    (v.set key value).IsGiven field ↔ v.IsGiven field ∨ t.field key = field := by
  constructor
  · rintro ⟨other, hfield, hpresent⟩
    rcases (isPresent_set ht).1 hpresent with hbefore | rfl
    · exact .inl ⟨other, hfield, hbefore⟩
    · exact .inr hfield
  · rintro (⟨other, hfield, hpresent⟩ | hfield)
    · exact ⟨other, hfield, (isPresent_set ht).2 (.inl hpresent)⟩
    · exact ⟨key, hfield, (isPresent_set ht).2 (.inr rfl)⟩

theorem Settled.set (ht : t.Sound) (h : v.Settled arena) (hext : arena.Extends b) (hfits : b.Fits)
    {key : t.Key} {value : t.Value (t.field key)}
    (hproper : (t.kind (t.field key)).Proper b value)
    (hspan : ∀ span, (t.kind (t.field key)).span? value = some span →
      span = b.finish arena.cursor) : (v.set key value).Settled b := by
  have hold := h.extend hext
  have hstop : (b.finish arena.cursor).stop = b.cursor := Span.stop_between hext.cursor_le
  have hnew (other : t.Field) (span : Span)
      (hother : (t.kind other).span? (v.value other) = some span) :
      span.Apart (b.finish arena.cursor) :=
    (h.within other span hother).apart (hstop ▸ Nat.le_of_lt hfits.lt_absentOffset)
  constructor
  case given =>
    intro field hgiven
    by_cases hfield : t.field key = field
    · subst hfield
      rw [value_set_self]
      exact hproper
    · rw [value_set_of_ne v value hfield]
      exact hold.given field (((isGiven_set ht).1 hgiven).resolve_right hfield)
  case default =>
    intro field hgiven
    rw [isGiven_set ht, not_or] at hgiven
    rw [value_set_of_ne v value hgiven.2]
    exact h.default field hgiven.1
  case within =>
    intro field span hfound
    by_cases hfield : t.field key = field
    · subst hfield
      rw [value_set_self] at hfound
      rw [hspan span hfound]
      exact .inr (Nat.le_of_eq hstop)
    · rw [value_set_of_ne v value hfield] at hfound
      exact hold.within field span hfound
  case apart =>
    intro field other hne span span' hfound hfound'
    by_cases hfield : t.field key = field
    · subst hfield
      rw [value_set_self] at hfound
      rw [value_set_of_ne v value hne] at hfound'
      rw [hspan span hfound]
      exact (hnew other span' hfound').symm
    · rw [value_set_of_ne v value hfield] at hfound
      by_cases hother : t.field key = other
      · subst hother
        rw [value_set_self] at hfound'
        rw [hspan span' hfound']
        exact hnew field span hfound
      · rw [value_set_of_ne v value hother] at hfound'
        exact h.apart field other hne span span' hfound hfound'

/-- What a caller may rely on in the parameters of a request. -/
structure Coherent (v : Values t) (arena : Arena) : Prop where
  /-- A value whose key was given is one that can be given. -/
  proper : ∀ key, v.isPresent key → (t.kind (t.field key)).Proper arena (v.value (t.field key))
  /-- In particular a text is found in the arena, and it is not empty. -/
  text : ∀ key span, v.span? key = some span → v.isPresent key →
    ∃ bs, bs ≠ [] ∧ arena.get? span = some bs
  absent : ∀ key span, v.span? key = some span → ¬ v.isPresent key → span = .absent
  apart : ∀ key other, key ≠ other → ∀ span span', v.span? key = some span →
    v.span? other = some span' → span.Apart span'
  default : ∀ field, ¬ v.IsGiven field → v.value field = (t.kind field).default

theorem Settled.coherent (ht : t.Sound) (htexts : t.OwnTexts) (h : v.Settled arena) :
    v.Coherent arena := by
  have hown {key other : t.Key} {span : Span} (hspan : v.span? key = some span)
      (hfield : t.field key = t.field other) : key = other :=
    htexts key (ht.mem key) other (ht.mem other) (ParameterKind.kind_of_span? hspan) hfield
  have hproper (key : t.Key) (hkey : v.isPresent key) := h.given (t.field key) ⟨key, rfl, hkey⟩
  constructor
  case proper => exact hproper
  case text => exact fun key span hspan hkey => (hproper key hkey).text hspan
  case absent =>
    intro key span hspan hkey
    have hgiven : ¬ v.IsGiven (t.field key) := by
      rintro ⟨other, hfield, hother⟩
      obtain rfl := hown hspan hfield.symm
      exact hkey hother
    rw [span?, h.default _ hgiven] at hspan
    exact ParameterKind.span?_default hspan
  case apart =>
    intro key other hne span span' hspan hspan'
    exact h.apart _ _ (fun hfield => hne (hown hspan hfield)) span span' hspan hspan'
  case default => exact h.default

end Values

theorem ownTexts_filterTable : filterTable.OwnTexts := by
  show ∀ key ∈ FilterKey.all, ∀ other ∈ FilterKey.all, key.field.kind = .text →
    key.field = other.field → key = other
  decide +kernel

theorem ownTexts_selectionTable : selectionTable.OwnTexts := fun _ _ _ _ _ h => h

end Intake.Request
