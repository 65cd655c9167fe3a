import Intake.Proofs.Request.Parameter
import Intake.Request.Query

/-!
# What a row of pairs leaves behind

A query gives its parameters one after the other. `Filled` says what holds of the parameters and of the
arena when some pairs have been read: which bits are set, that a field holds the value of the last pair
that sets it, and that the arena has the texts in the order in which they were given. One more pair
keeps it so, whether its key is known or not.

Parameters are listed by their words, so that what is said does not depend on how a table looks up a
key. In a sound table each key is listed once and found again by its word.
-/

namespace Intake.Request

open Percent (Denotes)

/-- A parameter by the word that stands for it in a query. -/
structure Parameter (Field : Type) where
  word : String
  field : Field
  kind : ParameterKind

def Parameter.key {Field : Type} (p : Parameter Field) : Bytes := Utf8.ofString p.word

/-! ### The last pair that sets a field -/

/-- Of the pairs whose keys are among `sets`, the last has a value of which `given` holds. Where there
is no such pair, `absent` holds. -/
inductive Latest (sets : Bytes → Prop) (pairs : List (Bytes × Bytes)) (absent : Prop)
    (given : Bytes → Prop) : Prop
  | absent (h : ∀ pair ∈ pairs, ¬ sets pair.1) (habsent : absent)
  | given {before after : List (Bytes × Bytes)} {key raw : Bytes}
      (hpairs : pairs = before ++ (key, raw) :: after) (hkey : sets key)
      (hafter : ∀ pair ∈ after, ¬ sets pair.1) (hgiven : given raw)

namespace Latest

variable {sets : Bytes → Prop} {pairs : List (Bytes × Bytes)} {absent absent' : Prop}
  {given given' : Bytes → Prop} {key raw : Bytes}

theorem nil (h : absent) : Latest sets [] absent given :=
  .absent (fun _ hpair => absurd hpair List.not_mem_nil) h

theorem snoc_self (hkey : sets key) (h : given raw) :
    Latest sets (pairs ++ [(key, raw)]) absent given :=
  .given rfl hkey (fun _ hpair => absurd hpair List.not_mem_nil) h

theorem snoc_of_not (h : Latest sets pairs absent given) (hkey : ¬ sets key) :
    Latest sets (pairs ++ [(key, raw)]) absent given := by
  have hlast {front : List (Bytes × Bytes)} (hfront : ∀ pair ∈ front, ¬ sets pair.1) :
      ∀ pair ∈ front ++ [(key, raw)], ¬ sets pair.1 := by
    intro pair hpair
    rcases List.mem_append.1 hpair with hpair | hpair
    · exact hfront pair hpair
    · rw [List.mem_singleton.1 hpair]
      exact hkey
  cases h with
  | absent h habsent => exact .absent (hlast h) habsent
  | @given before after key' raw' hpairs hset hafter hgiven =>
      have hsnoc : pairs ++ [(key, raw)] = before ++ (key', raw') :: (after ++ [(key, raw)]) := by
        rw [hpairs, List.append_assoc, List.cons_append]
      exact .given hsnoc hset (hlast hafter) hgiven

theorem mono (h : Latest sets pairs absent given) (habsent : absent → absent')
    (hgiven : ∀ raw, given raw → given' raw) : Latest sets pairs absent' given' := by
  cases h with
  | absent h ha => exact .absent h (habsent ha)
  | given hpairs hset hafter hg => exact .given hpairs hset hafter (hgiven _ hg)

theorem given_of_mem (h : Latest sets pairs absent given) (hmem : (key, raw) ∈ pairs)
    (hkey : sets key) (honly : ∀ pair ∈ pairs, sets pair.1 → pair = (key, raw)) : given raw := by
  cases h with
  | absent h => exact absurd hkey (h _ hmem)
  | @given before after key' raw' hpairs hset _ hgiven =>
      have hpair : (key', raw') ∈ pairs := by
        rw [hpairs]
        exact List.mem_append_right _ List.mem_cons_self
      obtain ⟨-, rfl⟩ := Prod.mk.inj (honly _ hpair hset)
      exact hgiven

/-- A pair that sets something is the last to do so if none behind it does. -/
theorem given_of_last {before after : List (Bytes × Bytes)}
    (h : Latest sets (before ++ (key, raw) :: after) absent given) (hkey : sets key)
    (hafter : ∀ pair ∈ after, ¬ sets pair.1) : given raw := by
  cases h with
  | absent h => exact absurd hkey (h (key, raw) (List.mem_append_right _ List.mem_cons_self))
  | given hpairs hset hnone hgiven =>
      rcases List.append_eq_append_iff.1 hpairs with ⟨more, -, hmore⟩ | ⟨more, -, hmore⟩
      · cases more with
        | nil =>
            cases hmore
            exact hgiven
        | cons pair more =>
            cases hmore
            exact absurd hset (hafter _ (List.mem_append_right _ List.mem_cons_self))
      · cases more with
        | nil =>
            cases hmore
            exact hgiven
        | cons pair more =>
            cases hmore
            exact absurd hkey (hnone _ (List.mem_append_right _ List.mem_cons_self))

end Latest

/-! ### The texts of a row -/

/-- The texts that the pairs with a text give, one behind the other. -/
inductive Texts (isText : Bytes → Prop) : List (Bytes × Bytes) → Bytes → Prop
  | nil : Texts isText [] []
  | text {key raw text bs : Bytes} {pairs : List (Bytes × Bytes)} (hkey : isText key)
      (h : Denotes text raw) (hpairs : Texts isText pairs bs) :
      Texts isText ((key, raw) :: pairs) (text ++ bs)
  | other {key raw bs : Bytes} {pairs : List (Bytes × Bytes)} (hkey : ¬ isText key)
      (hpairs : Texts isText pairs bs) : Texts isText ((key, raw) :: pairs) bs

namespace Texts

variable {isText : Bytes → Prop} {pairs : List (Bytes × Bytes)} {key raw text bs : Bytes}

theorem snoc_text (hpairs : Texts isText pairs bs) (hkey : isText key) (h : Denotes text raw) :
    Texts isText (pairs ++ [(key, raw)]) (bs ++ text) := by
  induction hpairs with
  | nil =>
      have hone : Texts isText [(key, raw)] (text ++ []) := .text hkey h .nil
      rw [List.append_nil] at hone
      exact hone
  | text hfirst hdenotes _ ih =>
      rw [List.append_assoc]
      exact .text hfirst hdenotes ih
  | other hfirst _ ih => exact .other hfirst ih

theorem snoc_other (hpairs : Texts isText pairs bs) (hkey : ¬ isText key) :
    Texts isText (pairs ++ [(key, raw)]) bs := by
  induction hpairs with
  | nil => exact .other hkey .nil
  | text hfirst hdenotes _ ih => exact .text hfirst hdenotes ih
  | other hfirst _ ih => exact .other hfirst ih

end Texts

/-! ### Tables -/

namespace ParameterKind

variable {kind : ParameterKind} {raw : Bytes} {content : kind.Content}

theorem Holds.mono {a b : Arena} (hab : a.Extends b) {value : kind.Value}
    (h : kind.Holds a value content) : kind.Holds b value content := by
  cases kind with
  | text => exact Arena.get?_of_extends hab h
  | sex | status | flag | signed | count | code | limit | order | keys => exact h

theorem kept_of_ne (h : kind ≠ .text) (content : kind.Content) : kind.kept content = [] := by
  cases kind with
  | text => exact absurd rfl h
  | sex | status | flag | signed | count | code | limit | order | keys => rfl

theorem denotes_kept (hkind : kind = .text) (h : kind.Means raw content) :
    Denotes (kind.kept content) raw := by
  cases hkind
  exact h.2

end ParameterKind

namespace Table

variable {t : Table}

/-- The parameters of a table in the order of their bits. -/
def parameters (t : Table) : List (Parameter t.Field) :=
  t.keys.map fun key => ⟨t.name key, t.field key, t.kind (t.field key)⟩

/-- The word of a key as it stands in a query. -/
def word (t : Table) (key : t.Key) : Bytes := Utf8.ofString (t.name key)

/-- Each key is listed once and found by its word, which is not the one for a query's number. -/
structure Sound (t : Table) : Prop where
  mem : ∀ key, key ∈ t.keys
  nodup : t.keys.Nodup
  found : ∀ key, t.key? (t.word key) = some key
  word_ne : ∀ key, t.word key ≠ queryIdKey

theorem Sound.word_inj (ht : t.Sound) {a b : t.Key} (h : t.word a = t.word b) : a = b := by
  have hfound := ht.found a
  rw [h, ht.found b] at hfound
  exact (Option.some.inj hfound).symm

theorem Sound.key?_eq_some_iff (ht : t.Sound) {bs : Bytes} {key : t.Key} :
    t.key? bs = some key ↔ bs = t.word key :=
  Bytes.find?_word_eq_some_iff ht.found

theorem mem_parameters (ht : t.Sound) {p : Parameter t.Field} : p ∈ t.parameters ↔
    ∃ key, p = ⟨t.name key, t.field key, t.kind (t.field key)⟩ := by
  rw [parameters, List.mem_map]
  exact ⟨fun ⟨key, _, h⟩ => ⟨key, h.symm⟩, fun ⟨key, h⟩ => ⟨key, ht.mem key, h.symm⟩⟩

theorem parameters_getElem?_eq_some_iff (ht : t.Sound) {i : Nat} {p : Parameter t.Field} :
    t.parameters[i]? = some p ↔
      ∃ key, t.bit key = i ∧ p = ⟨t.name key, t.field key, t.kind (t.field key)⟩ := by
  rw [parameters, List.getElem?_map, Option.map_eq_some_iff]
  constructor
  · rintro ⟨key, hkey, rfl⟩
    obtain ⟨hi, rfl⟩ := List.getElem?_eq_some_iff.1 hkey
    exact ⟨_, ht.nodup.idxOf_getElem i hi, rfl⟩
  · rintro ⟨key, rfl, rfl⟩
    have hlt : t.bit key < t.keys.length := List.idxOf_lt_length_iff.2 (ht.mem key)
    refine ⟨key, ?_, rfl⟩
    rw [List.getElem?_eq_getElem hlt]
    exact congrArg some (List.getElem_idxOf hlt)

end Table

/-- The words that set a field. -/
def Sets {Field : Type} (ps : List (Parameter Field)) (field : Field) (key : Bytes) : Prop :=
  ∃ p ∈ ps, p.field = field ∧ p.key = key

/-- The words whose values are kept as texts. -/
def SetsText {Field : Type} (ps : List (Parameter Field)) (key : Bytes) : Prop :=
  ∃ p ∈ ps, p.kind = .text ∧ p.key = key

/-- What holds of parameters that these pairs gave, with the arena of the request. -/
structure Filled (t : Table) (ps : List (Parameter t.Field)) (pairs : List (Bytes × Bytes))
    (v : Values t) (arena : Arena) : Prop where
  /-- The bits are those of the parameters whose words occur. -/
  mask : ∀ i, v.mask.testBit i ↔ ∃ p, ps[i]? = some p ∧ ∃ raw, (p.key, raw) ∈ pairs
  /-- A field holds what the last pair that sets it means, or its default. -/
  value : ∀ field, Latest (Sets ps field) pairs (v.value field = (t.kind field).default) fun raw =>
    ∃ content, (t.kind field).Means raw content ∧ (t.kind field).Holds arena (v.value field) content
  /-- The arena has the texts that were given and nothing else. -/
  texts : Texts (SetsText ps) pairs arena.contents

namespace Filled

variable {t : Table} {pairs : List (Bytes × Bytes)} {v : Values t} {arena b : Arena}

theorem nil (h : arena.contents = []) : Filled t t.parameters [] {} arena where
  mask i := by simp
  value field := .nil rfl
  texts := h ▸ .nil

theorem snoc_unknown (h : Filled t t.parameters pairs v arena) {key raw : Bytes}
    (hkey : ∀ p ∈ t.parameters, p.key ≠ key) :
    Filled t t.parameters (pairs ++ [(key, raw)]) v arena where
  mask i := by
    rw [h.mask i]
    constructor
    · rintro ⟨p, hp, raw', hmem⟩
      exact ⟨p, hp, raw', List.mem_append_left _ hmem⟩
    · rintro ⟨p, hp, raw', hmem⟩
      rcases List.mem_append.1 hmem with hmem | hmem
      · exact ⟨p, hp, raw', hmem⟩
      · have hsame := (Prod.mk.inj (List.mem_singleton.1 hmem)).1
        exact absurd hsame (hkey p (List.mem_of_getElem? hp))
  value field := (h.value field).snoc_of_not fun ⟨p, hp, _, hword⟩ => hkey p hp hword
  texts := h.texts.snoc_other fun ⟨p, hp, _, hword⟩ => hkey p hp hword

/-- A pair whose key is known marks the key and sets its field. -/
theorem snoc_known (ht : t.Sound) (h : Filled t t.parameters pairs v arena) (key : t.Key) {raw : Bytes}
    {value : t.Value (t.field key)} {content : (t.kind (t.field key)).Content}
    (hmeans : (t.kind (t.field key)).Means raw content)
    (hholds : (t.kind (t.field key)).Holds b value content)
    (hcontents : b.contents = arena.contents ++ (t.kind (t.field key)).kept content)
    (hcapacity : b.capacity = arena.capacity) :
    Filled t t.parameters (pairs ++ [(t.word key, raw)]) (v.set key value) b where
  mask i := by
    have hbit : (v.set key value).mask.testBit i ↔ v.mask.testBit i ∨ t.bit key = i := by
      rw [Values.set, Nat.testBit_or, Nat.one_shiftLeft, Nat.testBit_two_pow, Bool.or_eq_true,
        decide_eq_true_iff]
    rw [hbit, h.mask i]
    constructor
    · rintro (⟨p, hp, raw', hmem⟩ | hi)
      · exact ⟨p, hp, raw', List.mem_append_left _ hmem⟩
      · exact ⟨_, (Table.parameters_getElem?_eq_some_iff ht).2 ⟨key, hi, rfl⟩, raw,
          List.mem_append_right _ (List.mem_singleton_self _)⟩
    · rintro ⟨p, hp, raw', hmem⟩
      rcases List.mem_append.1 hmem with hmem | hmem
      · exact .inl ⟨p, hp, raw', hmem⟩
      · obtain ⟨key', hi, rfl⟩ := (Table.parameters_getElem?_eq_some_iff ht).1 hp
        have hword : t.word key' = t.word key := (Prod.mk.inj (List.mem_singleton.1 hmem)).1
        exact .inr (ht.word_inj hword ▸ hi)
  value field := by
    by_cases hfield : t.field key = field
    · subst hfield
      have hsets : Sets t.parameters (t.field key) (t.word key) :=
        ⟨_, (Table.mem_parameters ht).2 ⟨key, rfl⟩, rfl, rfl⟩
      refine .snoc_self hsets ⟨content, hmeans, ?_⟩
      rw [Values.value_set_self]
      exact hholds
    · have hsets : ¬ Sets t.parameters field (t.word key) := by
        rintro ⟨p, hp, hpfield, hword⟩
        obtain ⟨key', rfl⟩ := (Table.mem_parameters ht).1 hp
        exact hfield (ht.word_inj hword ▸ hpfield)
      have hextends : arena.Extends b := ⟨⟨_, hcontents.symm⟩, hcapacity⟩
      rw [Values.value_set_of_ne v value hfield]
      refine ((h.value field).snoc_of_not hsets).mono id fun raw' hraw => ?_
      obtain ⟨other, hother, hheld⟩ := hraw
      exact ⟨other, hother, hheld.mono hextends⟩
  texts := by
    rw [hcontents]
    by_cases hkind : t.kind (t.field key) = .text
    · exact h.texts.snoc_text ⟨_, (Table.mem_parameters ht).2 ⟨key, rfl⟩, hkind, rfl⟩
        (ParameterKind.denotes_kept hkind hmeans)
    · rw [ParameterKind.kept_of_ne hkind, List.append_nil]
      refine h.texts.snoc_other ?_
      rintro ⟨p, hp, hptext, hword⟩
      obtain ⟨key', rfl⟩ := (Table.mem_parameters ht).1 hp
      exact hkind (ht.word_inj hword ▸ hptext)

/-- Bits do not depend on the order of the pairs. -/
theorem mask_congr {ps : List (Parameter t.Field)} {pairs' : List (Bytes × Bytes)} {v' : Values t}
    (h : Filled t ps pairs v arena) (h' : Filled t ps pairs' v' b)
    (hmem : ∀ pair, pair ∈ pairs' ↔ pair ∈ pairs) : v'.mask = v.mask := by
  refine Nat.eq_of_testBit_eq fun i => Bool.eq_iff_iff.2 ?_
  rw [h.mask i, h'.mask i]
  simp only [hmem]

/-- A field that only one pair sets holds what that pair was given. -/
theorem holds_of_mem {ps : List (Parameter t.Field)} (h : Filled t ps pairs v arena)
    {p : Parameter t.Field} (hp : p ∈ ps) {raw : Bytes} (hmem : (p.key, raw) ∈ pairs)
    (honly : ∀ pair ∈ pairs, Sets ps p.field pair.1 → pair = (p.key, raw)) :
    ∃ content, (t.kind p.field).Means raw content ∧
      (t.kind p.field).Holds arena (v.value p.field) content :=
  (h.value p.field).given_of_mem hmem ⟨p, hp, rfl, rfl⟩ honly

end Filled

end Intake.Request
