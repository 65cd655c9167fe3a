import Intake.Proofs.Account
import Intake.Proofs.Decimal
import Intake.Proofs.Request.GroupKeys
import Intake.Proofs.Request.Percent
import Intake.Proofs.Request.Reuse

/-!
# What the value of a parameter means

Each kind of parameter has contents of its own and a relation that says what a raw value means. To read
a value is to accept it with the content that it means, or to refuse it because it means nothing. Only
texts leave anything in the arena.
-/

namespace Intake.Request

open Percent (Denotes)

namespace ParameterKind

/-- What a value of a kind can mean. -/
abbrev Content : ParameterKind → Type
  | text => Bytes
  | sex => Sex
  | status => Status
  | flag => Bool
  | signed => Int
  | count | code | limit => Nat
  | order => Order
  | keys => GroupKeys

/-- The raw value means the content. -/
def Means : (kind : ParameterKind) → Bytes → kind.Content → Prop
  | text, raw, (bs : Bytes) => bs ≠ [] ∧ Denotes bs raw
  | sex, raw, (value : Sex) => raw = Utf8.ofString value.code
  | status, raw, (value : Status) => Denotes (Utf8.ofString value.literal) raw
  | flag, raw, (value : Bool) => raw = Utf8.ofString (if value then "1" else "0")
  | signed, raw, (v : Int) =>
    Decimal.SpellsSigned v raw ∧ -(Decimal.signedBound : Int) ≤ v ∧ v < Decimal.signedBound
  | count, raw, (n : Nat) => Decimal.Spells n raw ∧ n < Decimal.unsignedBound
  | code, raw, (n : Nat) => Decimal.Spells n raw ∧ n < 0x10000
  | limit, raw, (n : Nat) => Decimal.Spells n raw ∧ n < Decimal.unsignedBound ∧ 0 < n
  | order, raw, (value : Order) => raw = Utf8.ofString (if value = .descending then "1" else "0")
  | keys, raw, (value : GroupKeys) =>
    value.toList ≠ [] ∧ Denotes ([Byte.comma].intercalate value.names) raw

/-- The value of a field holds the content. A text lies in the arena. -/
def Holds (arena : Arena) : (kind : ParameterKind) → kind.Value → kind.Content → Prop
  | text, span, (bs : Bytes) => arena.get? span = some bs
  | sex, value, (content : Sex) => value = some content
  | status, value, (content : Status) => value = some content
  | flag, value, (content : Bool) => value = content
  | signed, value, (content : Int) => value = content
  | count, value, (content : Nat) => value = content
  | code, value, (content : Nat) => value = content
  | limit, value, (content : Nat) => value = content
  | order, value, (content : Order) => value = content
  | keys, value, (content : GroupKeys) => value = content

/-- What a content leaves in the arena. -/
def kept : (kind : ParameterKind) → kind.Content → Bytes
  | text, (bs : Bytes) => bs
  | _, _ => []

variable {kind : ParameterKind} {raw : Bytes} {arena : Arena}

theorem intercalate_names_ne_nil {keys : GroupKeys} (h : keys.toList ≠ []) :
    [Byte.comma].intercalate keys.names ≠ [] := by
  cases hkeys : keys.toList with
  | nil => exact absurd hkeys h
  | cons key rest =>
      have hname : Utf8.ofString key.name ≠ [] := by cases key <;> decide
      rw [GroupKeys.names, hkeys, List.map_cons]
      cases rest with
      | nil =>
          rw [List.map_nil, List.intercalate_singleton]
          exact hname
      | cons next rest =>
          rw [List.map_cons, List.intercalate_cons_cons, List.append_assoc]
          exact List.append_ne_nil_of_left_ne_nil hname _

theorem binary?_eq_some_iff {α : Type} {zero one value : α} :
    Reading.binary? zero one raw = some value ↔
      raw = [0x30] ∧ value = zero ∨ raw = [0x31] ∧ value = one := by
  unfold Reading.binary?
  split
  next h => simp [h, eq_comm]
  next h =>
    rw [Option.ite_none_right_eq_some, Option.some.injEq]
    simp [h, eq_comm]

theorem binary?_flag {value : Bool} :
    Reading.binary? false true raw = some value ↔ Means flag raw value := by
  rw [binary?_eq_some_iff]
  cases value <;> simp [Means, Utf8.ofString, Utf8.encode]

theorem binary?_order {value : Order} :
    Reading.binary? Order.ascending .descending raw = some value ↔ Means order raw value := by
  rw [binary?_eq_some_iff]
  cases value <;> simp [Means, Utf8.ofString, Utf8.encode]

theorem filter_limit {n : Nat} :
    (Decimal.unsigned? raw).filter (0 < ·) = some n ↔ Means limit raw n := by
  rw [Option.filter_eq_some_iff, Decimal.unsigned?_eq_some_iff, decide_eq_true_iff, and_assoc]
  rfl

theorem Means.unique {a b : kind.Content} (ha : kind.Means raw a) (hb : kind.Means raw b) : a = b := by
  cases kind with
  | text => exact ha.2.unique hb.2
  | signed | count | code | limit => exact ha.1.unique hb.1
  | sex =>
      have hread := Sex.ofCode?_eq_some_iff.2 ha
      rw [Sex.ofCode?_eq_some_iff.2 hb] at hread
      exact (Option.some.inj hread).symm
  | status =>
      have hread := Status.ofLiteral?_eq_some_iff.2 (Denotes.unique ha hb)
      rw [Status.ofLiteral?_eq_some_iff.2 rfl] at hread
      exact Option.some.inj hread
  | flag =>
      have hread := binary?_flag.2 ha
      rw [binary?_flag.2 hb] at hread
      exact (Option.some.inj hread).symm
  | order =>
      have hread := binary?_order.2 ha
      rw [binary?_order.2 hb] at hread
      exact (Option.some.inj hread).symm
  | keys =>
      have hread := GroupKeys.parse?_eq_some_iff.2 ⟨hb.1, ha.2.unique hb.2⟩
      rw [GroupKeys.parse?_eq_some_iff.2 ⟨ha.1, rfl⟩] at hread
      exact Option.some.inj hread

theorem Means.length_kept_le {content : kind.Content} (h : kind.Means raw content) :
    (kind.kept content).length ≤ raw.length := by
  cases kind with
  | text => exact h.2.length_le
  | sex | status | flag | signed | count | code | limit | order | keys => exact Nat.zero_le _

/-! ### Reading -/

/-- What reading a raw value can come to. -/
inductive Answers (kind : ParameterKind) (raw : Bytes) (arena : Arena) : Reading kind.Value → Prop
  | accepted {value : kind.Value} {content : kind.Content} {b : Arena} (h : kind.Means raw content)
      (hholds : kind.Holds b value content) (hcontents : b.contents = arena.contents ++ kind.kept content)
      (hfits : b.cursor ≤ b.capacity) : Answers kind raw arena (.accepted value b)
  | malformed (h : ∀ content, ¬ kind.Means raw content) : Answers kind raw arena .malformed
  | overflow {o : Overflow} {b : Arena} (h : arena.capacity < arena.cursor + raw.length) :
      Answers kind raw arena (.overflow o b)

section Reading

variable (hfits : arena.cursor ≤ arena.capacity)
include hfits

theorem answers_text : Answers text raw arena (Reading.text raw arena) := by
  unfold Reading.text
  split
  next hraw =>
    exact .malformed fun content h => h.1 (h.2.eq_nil_iff.2 hraw)
  next hraw =>
    have hwrites := Percent.writes_decodeFrom raw 0 0 hfits
    dsimp only [Percent.decode, Cursor.start]
    generalize Percent.decodeFrom 0 arena 0 raw = decoded at hwrites ⊢
    cases hwrites with
    | exhausted h hcontents hfull =>
        exact .accepted ⟨fun htext => hraw (h.eq_nil_iff.1 htext), h⟩
          (Arena.get?_finish hcontents hfull) hcontents hfull
    | complete h => exact .malformed fun content hmeans => h _ hmeans.2
    | needMore h => exact .malformed fun content hmeans => h _ hmeans.2
    | overflow h => exact .overflow h

theorem answers_ofOption {read : Option kind.Content} {put : kind.Content → kind.Value}
    (hkept : ∀ content, kind.kept content = [])
    (hholds : ∀ content, kind.Holds arena (put content) content)
    (hread : ∀ content, read = some content ↔ kind.Means raw content) :
    Answers kind raw arena (.ofOption (read.map put) arena) := by
  cases read with
  | none =>
      refine .malformed fun content hcontent => ?_
      have hsome := (hread content).2 hcontent
      cases hsome
  | some content =>
      exact .accepted ((hread content).1 rfl) (hholds content) (by rw [hkept, List.append_nil]) hfits

theorem answers_scratch {inspect : Bytes → Option kind.Content} {put : kind.Content → kind.Value}
    (hkept : ∀ content, kind.kept content = [])
    (hholds : ∀ content, kind.Holds arena (put content) content)
    (htext : ∀ content, kind.Means raw content → ∃ bs, text.Means raw bs)
    (hread : ∀ bs, text.Means raw bs → ∀ content, inspect bs = some content ↔ kind.Means raw content) :
    Answers kind raw arena (.scratch (fun bs => (inspect bs).map put) raw arena) := by
  obtain ⟨reading, hreading⟩ : ∃ reading : Reading text.Value, reading = Reading.text raw arena :=
    ⟨_, rfl⟩
  have hanswers : Answers text raw arena reading := hreading ▸ answers_text hfits
  unfold Reading.scratch
  rw [← hreading]
  cases hanswers with
  | @accepted span bs written hbs hget =>
      have hview : written.view span = bs := congrArg (Option.getD · []) hget
      rw [← hview] at hbs
      exact answers_ofOption hfits hkept hholds (hread _ hbs)
  | malformed h =>
      refine .malformed fun content hcontent => ?_
      obtain ⟨bs, hbs⟩ := htext content hcontent
      exact h bs hbs
  | overflow h => exact .overflow h

/-- Reading accepts what means something, refuses what means nothing, and runs out of room only if the
value does not fit as it is written. -/
theorem answers_read (kind : ParameterKind) (raw : Bytes) :
    Answers kind raw arena (kind.read raw arena) := by
  have hself {kind : ParameterKind} {read : Option kind.Value}
      (h : Answers kind raw arena (.ofOption (read.map id) arena)) :
      Answers kind raw arena (.ofOption read arena) := by
    rw [Option.map_id_fun, id] at h
    exact h
  cases kind with
  | text => exact answers_text hfits
  | sex => exact answers_ofOption hfits (fun _ => rfl) (fun _ => rfl) fun _ => Sex.ofCode?_eq_some_iff
  | flag => exact hself (answers_ofOption hfits (fun _ => rfl) (fun _ => rfl) fun _ => binary?_flag)
  | order => exact hself (answers_ofOption hfits (fun _ => rfl) (fun _ => rfl) fun _ => binary?_order)
  | signed =>
      exact hself (answers_ofOption hfits (fun _ => rfl) (fun _ => rfl) fun _ =>
        Decimal.signed?_eq_some_iff)
  | count =>
      exact hself (answers_ofOption hfits (fun _ => rfl) (fun _ => rfl) fun _ =>
        Decimal.unsigned?_eq_some_iff)
  | code =>
      exact hself (answers_ofOption hfits (fun _ => rfl) (fun _ => rfl) fun _ =>
        Decimal.plain?_eq_some_iff (by decide))
  | limit => exact hself (answers_ofOption hfits (fun _ => rfl) (fun _ => rfl) fun _ => filter_limit)
  | status =>
      refine answers_scratch hfits (fun _ => rfl) (fun _ => rfl) (fun content h => ⟨_, ?_, h⟩)
        fun bs hbs content => ?_
      · cases content <;> decide
      · rw [Status.ofLiteral?_eq_some_iff]
        constructor
        · rintro rfl
          exact hbs.2
        · exact hbs.2.unique
  | keys =>
      have hinspect : Reading.scratch GroupKeys.parse? raw arena =
          .scratch (fun bs => (GroupKeys.parse? bs).map id) raw arena := by
        simp only [Option.map_id_fun, id]
      show Answers keys raw arena (Reading.scratch GroupKeys.parse? raw arena)
      rw [hinspect]
      refine answers_scratch hfits (fun _ => rfl) (fun _ => rfl)
        (fun content h => ⟨_, intercalate_names_ne_nil h.1, h.2⟩) fun bs hbs content => ?_
      rw [GroupKeys.parse?_eq_some_iff]
      constructor
      · rintro ⟨hne, rfl⟩
        exact ⟨hne, hbs.2⟩
      · exact fun h => ⟨h.1, hbs.2.unique h.2⟩

end Reading

end ParameterKind

end Intake.Request
