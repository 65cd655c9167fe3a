import Intake.Proofs.Bytes.Split
import Intake.Request.GroupKeys

/-!
# Lists of group keys

A text is read as a list of group keys just when it is their names with commas between them. The mask
of the keys has the bits of those that are listed, whatever their order.
-/

namespace Intake.Request

theorem GroupKey.ofName?_eq_some_iff {bs : Bytes} {key : GroupKey} :
    GroupKey.ofName? bs = some key ↔ bs = Utf8.ofString key.name :=
  Bytes.find?_word_eq_some_iff fun key => by cases key <;> decide

namespace GroupKeys

/-- The names of the keys in order. -/
def names (keys : GroupKeys) : List Bytes := keys.toList.map fun key => Utf8.ofString key.name

@[ext] theorem ext {keys other : GroupKeys} (h : keys.toList = other.toList) : keys = other := by
  cases keys
  cases other
  cases h
  rfl

theorem push?_eq_some_iff {keys more : GroupKeys} {key : GroupKey} :
    keys.push? key = some more ↔ key ∉ keys.toList ∧ more.toList = keys.toList ++ [key] := by
  unfold push?
  split
  next h => simp [h]
  next h =>
    rw [Option.some.injEq]
    constructor
    · rintro rfl
      exact ⟨h, rfl⟩
    · rintro ⟨-, hmore⟩
      exact ext hmore.symm

/-- Reading names after some keys adds the keys they name, as long as none of them stands twice. -/
theorem foldlM_eq_some_iff {names : List Bytes} {start keys : GroupKeys} :
    (names.foldlM (fun keys name => do keys.push? (← GroupKey.ofName? name)) start) = some keys ↔
      ∃ more : List GroupKey, names = more.map (fun key => Utf8.ofString key.name) ∧
        keys.toList = start.toList ++ more := by
  induction names generalizing start with
  | nil =>
      constructor
      · intro h
        cases h
        exact ⟨[], rfl, (List.append_nil _).symm⟩
      · rintro ⟨more, hmore, hkeys⟩
        rw [List.map_eq_nil_iff.1 hmore.symm, List.append_nil] at hkeys
        exact congrArg some (ext hkeys.symm)
  | cons name names ih =>
      rw [List.foldlM_cons]
      refine Option.bind_eq_some_iff.trans ?_
      simp only [ih]
      simp only [Option.bind_eq_bind, Option.bind_eq_some_iff, GroupKey.ofName?_eq_some_iff,
        push?_eq_some_iff]
      constructor
      · rintro ⟨next, ⟨key, rfl, -, hnext⟩, more, rfl, hkeys⟩
        refine ⟨key :: more, rfl, ?_⟩
        rw [hkeys, hnext, List.append_assoc, List.singleton_append]
      · rintro ⟨more, hmore, hkeys⟩
        obtain ⟨key, rest, rfl, rfl, rfl⟩ := List.map_eq_cons_iff.1 hmore.symm
        have hnodup : (start.toList ++ [key] ++ rest).Nodup := by
          rw [List.append_assoc, List.singleton_append, ← hkeys]
          exact keys.nodup
        have hfront := (List.nodup_append.1 hnodup).1
        refine ⟨⟨start.toList ++ [key], hfront⟩, ⟨key, rfl, ?_, rfl⟩, rest, rfl, ?_⟩
        · intro hmem
          exact (List.nodup_append.1 hfront).2.2 key hmem key (List.mem_singleton_self key) rfl
        · rw [hkeys, List.append_assoc, List.singleton_append]

theorem parse?_eq_some_iff {bs : Bytes} {keys : GroupKeys} : parse? bs = some keys ↔
    keys.toList ≠ [] ∧ bs = [Byte.comma].intercalate keys.names := by
  have hplain : ∀ name ∈ keys.names, Byte.comma ∉ name := by
    intro name hname
    obtain ⟨key, -, rfl⟩ := List.mem_map.1 hname
    cases key <;> decide
  have hread : parse? bs = some keys ↔ bs.splitOn Byte.comma = keys.names := by
    rw [parse?, ofNames?, foldlM_eq_some_iff]
    constructor
    · rintro ⟨more, hmore, hkeys⟩
      rw [hmore, names, hkeys]
      rfl
    · exact fun h => ⟨keys.toList, h, rfl⟩
  rw [hread, Bytes.splitOn_eq_iff]
  constructor
  · rintro ⟨hne, -, hbs⟩
    exact ⟨fun h => hne (List.map_eq_nil_iff.2 h), hbs.symm⟩
  · rintro ⟨hne, hbs⟩
    exact ⟨fun h => hne (List.map_eq_nil_iff.1 h), hplain, hbs.symm⟩

/-- The text is the names of the keys with commas between them, and none of them stands twice. -/
structure Lists (list : List GroupKey) (text : Bytes) : Prop where
  nonempty : list ≠ []
  nodup : list.Nodup
  spelled : text = [Byte.comma].intercalate (list.map fun key => Utf8.ofString key.name)

theorem lists_iff {list : List GroupKey} {text : Bytes} :
    Lists list text ↔ ∃ keys, parse? text = some keys ∧ keys.toList = list := by
  constructor
  · intro h
    exact ⟨⟨list, h.nodup⟩, parse?_eq_some_iff.2 ⟨h.nonempty, h.spelled⟩, rfl⟩
  · rintro ⟨keys, hparse, rfl⟩
    obtain ⟨hne, htext⟩ := parse?_eq_some_iff.1 hparse
    exact ⟨hne, keys.nodup, htext⟩

/-! ### Masks -/

theorem testBit_marks {list : List GroupKey} {mask i : Nat} :
    (list.foldl (fun mask key => mask ||| 1 <<< key.number) mask).testBit i ↔
      mask.testBit i ∨ ∃ key ∈ list, key.number = i := by
  induction list generalizing mask with
  | nil => simp only [List.foldl_nil, List.not_mem_nil, false_and, exists_false, or_false]
  | cons key list ih =>
      rw [List.foldl_cons, ih, Nat.testBit_or, Nat.one_shiftLeft, Nat.testBit_two_pow, Bool.or_eq_true,
        decide_eq_true_iff, or_assoc]
      simp only [List.mem_cons, or_and_right, exists_or, exists_eq_left]

theorem testBit_mask {keys : GroupKeys} {i : Nat} :
    keys.mask.testBit i ↔ ∃ key ∈ keys.toList, key.number = i := by
  rw [mask, testBit_marks, Nat.zero_testBit, Bool.false_eq_true, false_or]

end GroupKeys

end Intake.Request
