import Intake.Proofs.Checked.Percent
import Intake.Proofs.Checked.Token
import Intake.Proofs.Request.Coherent

/-!
# Parameter values with checks

A magnitude of 32 bits has a negation in 64 bits, whatever sign it is given. The keys of a list lie in a
row of five places: the fields are five and none is listed twice, so a field that is not listed yet
finds a free place.
-/

namespace Intake.Checked

open Request

/-! ### Numbers -/

/-- The number that digits spell behind those of `value`, while it fits 32 bits. -/
def unsignedFrom (value : Nat) : Bytes → Checked (Option Nat)
  | [] => return some value
  | b :: bs => do
    if Byte.isDigit b then
      match ← shiftIn Decimal.unsignedBound value b with
      | none => return none
      | some more => unsignedFrom more bs
    else return none

def unsigned (bs : Bytes) : Checked (Option Nat) := do
  if bs = [] then return none else unsignedFrom 0 bs

/-- The number, if it fits 32 bits with a sign. -/
def narrow (n : Int) : Option Int :=
  if -Decimal.signedBound ≤ n ∧ n < Decimal.signedBound then some n else none

def signed : Bytes → Checked (Option Int)
  | [] => return none
  | b :: bs => do
    if b = Byte.minus then
      match ← unsigned bs with
      | none => return none
      | some magnitude => return narrow (← negate magnitude)
    else return (← unsigned (b :: bs)).bind fun n => narrow n

theorem unsignedFrom_eq (value : Nat) (bs : Bytes) :
    unsignedFrom value bs =
      .ok (if bs.all Byte.isDigit then Decimal.boundedFrom? Decimal.unsignedBound value bs else none) := by
  induction bs generalizing value with
  | nil => rfl
  | cons b bs ih =>
      rw [unsignedFrom, List.all_cons, Decimal.boundedFrom?]
      by_cases hb : Byte.isDigit b
      · rw [if_pos hb, shiftIn_eq hb, ok_bind, below?, hb, Bool.true_and]
        by_cases hlt : Decimal.shift value b < Decimal.unsignedBound
        · rw [if_pos hlt, if_pos hlt]
          exact ih _
        · rw [if_neg hlt, if_neg hlt, ite_self]
          rfl
      · rw [if_neg hb, Bool.eq_false_iff.2 hb, Bool.false_and]
        rfl

theorem unsigned_eq (bs : Bytes) : unsigned bs = .ok (Decimal.unsigned? bs) := by
  unfold unsigned Decimal.unsigned? Decimal.plain?
  by_cases hbs : bs = []
  · rw [if_pos hbs, if_neg fun h => h.1 hbs]
    rfl
  · rw [if_neg hbs, unsignedFrom_eq]
    simp only [ne_eq, hbs, not_false_eq_true, true_and, Decimal.bounded?]

theorem plain?_filter {bound wide : Nat} (hbound : 0 < bound) (h : bound ≤ wide) (bs : Bytes) :
    (Decimal.plain? wide bs).filter (· < bound) = Decimal.plain? bound bs := by
  ext n
  rw [Option.filter_eq_some_iff, Decimal.plain?_eq_some_iff hbound,
    Decimal.plain?_eq_some_iff (Nat.lt_of_lt_of_le hbound h), decide_eq_true_iff]
  exact ⟨fun ⟨⟨hspells, _⟩, hlt⟩ => ⟨hspells, hlt⟩,
    fun ⟨hspells, hlt⟩ => ⟨⟨hspells, Nat.lt_of_lt_of_le hlt h⟩, hlt⟩⟩

/-- The range of signed numbers is a bound on the magnitude. -/
theorem narrow_unsigned {bound : Nat} {f : Nat → Int} (hbound : 0 < bound)
    (hle : bound ≤ Decimal.unsignedBound)
    (hf : ∀ n, narrow (f n) = if n < bound then some (f n) else none) (bs : Bytes) :
    (Decimal.unsigned? bs).bind (fun n => narrow (f n)) = (Decimal.plain? bound bs).map f := by
  rw [← plain?_filter hbound hle, Decimal.unsigned?]
  cases Decimal.plain? Decimal.unsignedBound bs with
  | none => rfl
  | some n =>
      rw [Option.bind_some, hf, Option.filter_some]
      by_cases hlt : n < bound
      · rw [if_pos hlt, if_pos (decide_eq_true hlt)]
        rfl
      · rw [if_neg hlt, if_neg fun h => hlt (of_decide_eq_true h)]
        rfl

theorem signed_eq (bs : Bytes) : signed bs = .ok (Decimal.signed? bs) := by
  cases bs with
  | nil => rfl
  | cons b bs =>
      rw [signed]
      by_cases hb : b = Byte.minus
      · have hminus : ∀ n : Nat, narrow (-(n : Int)) =
            if n < Decimal.signedBound + 1 then some (-(n : Int)) else none := by
          intro n
          have hpos : 0 < Decimal.signedBound := by decide
          unfold narrow
          congr 1
          exact propext (by omega)
        rw [if_pos hb, hb, Decimal.signed?_minus,
          ← narrow_unsigned (Nat.succ_pos _) (by decide) hminus, unsigned_eq, ok_bind]
        cases Decimal.unsigned? bs with
        | none => rfl
        | some n =>
            have hne : (n : Int) ≠ -Decimal.wideBound := by
              have hpos : 0 < Decimal.wideBound := by decide
              omega
            dsimp only
            rw [negate_of_ne hne]
            rfl
      · have hplain : ∀ n : Nat, narrow n =
            if n < Decimal.signedBound then some (n : Int) else none := by
          intro n
          unfold narrow
          congr 1
          exact propext (by omega)
        rw [if_neg hb, Decimal.signed?_of_ne hb,
          ← narrow_unsigned (by decide) (by decide) hplain, unsigned_eq]
        rfl

/-! ### Group keys -/

/-- Adds a key behind those that lie in the row. -/
def pushKey (keys : GroupKeys) (key : GroupKey) : Checked (Option GroupKeys) := do
  let length := keys.toList.length
  require .slice (length ≤ GroupKeys.maxLength)
  if keys.contains key then return none
  else
    entry GroupKeys.maxLength length
    require .sum (length + 1 < 0x100)
    return keys.push? key

/-- Adds the keys of a row of names, each known and none given twice. -/
def pushNames (keys : GroupKeys) : List Bytes → Checked (Option GroupKeys)
  | [] => return some keys
  | name :: names => do
    match GroupKey.ofName? name with
    | none => return none
    | some key =>
      match ← pushKey keys key with
      | none => return none
      | some keys => pushNames keys names

theorem length_keys_le (keys : GroupKeys) : keys.toList.length ≤ GroupKeys.maxLength :=
  keys.nodup.length_le_of_subset fun key _ => key.mem_all

/-- A key that is not listed finds a free place behind those that are. -/
theorem length_lt_of_not_mem {keys : GroupKeys} {key : GroupKey} (h : key ∉ keys.toList) :
    keys.toList.length < GroupKeys.maxLength :=
  (List.nodup_cons.2 ⟨h, keys.nodup⟩).length_le_of_subset fun key _ => key.mem_all

theorem pushKey_eq (keys : GroupKeys) (key : GroupKey) : pushKey keys key = .ok (keys.push? key) := by
  rw [pushKey, require_of (length_keys_le keys), ok_bind, GroupKeys.contains]
  by_cases hmem : key ∈ keys.toList
  · rw [if_pos (decide_eq_true hmem), GroupKeys.push?, dif_pos hmem]
    rfl
  · have hlt := length_lt_of_not_mem hmem
    have hbyte : keys.toList.length + 1 < 0x100 := Nat.lt_of_le_of_lt hlt (by decide)
    rw [if_neg fun h => hmem (of_decide_eq_true h), entry_of_lt hlt, ok_bind, require_of hbyte]
    rfl

theorem pushNames_eq (keys : GroupKeys) (names : List Bytes) :
    pushNames keys names =
      .ok (names.foldlM (fun keys name => do keys.push? (← GroupKey.ofName? name)) keys) := by
  induction names generalizing keys with
  | nil => rfl
  | cons name names ih =>
      rw [pushNames, List.foldlM_cons]
      cases GroupKey.ofName? name with
      | none => rfl
      | some key =>
          dsimp only
          rw [pushKey_eq, ok_bind]
          change _ = Except.ok ((keys.push? key).bind fun keys => names.foldlM _ keys)
          cases keys.push? key with
          | none => rfl
          | some keys => exact ih keys

/-! ### Values -/

/-- Decodes a text that is not empty to the end of the arena. -/
def text (raw : Bytes) (arena : Arena) : Checked (Reading Span) := do
  if raw = [] then return .malformed
  else
    let decoded ← url raw arena 0
    match decoded.outcome with
    | .error overflow => return .overflow overflow decoded.arena
    | .ok (.exhausted _) =>
      return .accepted (← finish decoded.arena arena.cursor) decoded.arena
    | .ok (.complete _) | .ok (.needMore _) => return .malformed

/-- Decodes a text only to look at it. What was written is taken back. -/
def scratch {α : Type} (inspect : Bytes → Checked (Option α)) (raw : Bytes) (arena : Arena) :
    Checked (Reading α) := do
  match ← text raw arena with
  | .accepted span written =>
    return .ofOption (← inspect (written.view span)) (written.truncate span.offset)
  | .malformed => return .malformed
  | .overflow overflow written => return .overflow overflow written

/-- Reads the value of a parameter of this kind. -/
def readValue : (kind : ParameterKind) → Bytes → Arena → Checked (Reading kind.Value)
  | .text => text
  | .sex => fun raw arena => return .ofOption ((Sex.ofCode? raw).map some) arena
  | .status => scratch fun text => return (Status.ofLiteral? text).map some
  | .flag => fun raw arena => return .ofOption (Reading.binary? false true raw) arena
  | .signed => fun raw arena => return .ofOption (← signed raw) arena
  | .count => fun raw arena => return .ofOption (← unsigned raw) arena
  | .code => fun raw arena => return .ofOption ((← unsigned raw).filter (· < 0x10000)) arena
  | .limit => fun raw arena => return .ofOption ((← unsigned raw).filter (0 < ·)) arena
  | .order => fun raw arena => return .ofOption (Reading.binary? .ascending .descending raw) arena
  | .keys => scratch fun text => pushNames .empty (text.splitOn Byte.comma)

section Values

variable {arena : Arena} (hfits : arena.Fits)
include hfits

theorem text_eq (raw : Bytes) : text raw arena = .ok (Reading.text raw arena) := by
  unfold text Reading.text
  by_cases hraw : raw = []
  · rw [if_pos hraw, if_pos hraw]
    rfl
  have hurl : url raw arena 0 = .ok (Percent.decode arena (.start raw)) := url_eq raw hfits 0
  have hext : arena.Extends (Percent.decode arena (.start raw)).arena := extends_percent 0 arena 0 raw
  rw [if_neg hraw, if_neg hraw, hurl, ok_bind]
  dsimp only
  cases (Percent.decode arena (.start raw)).outcome with
  | error overflow => rfl
  | ok outcome =>
      cases outcome with
      | complete | needMore => rfl
      | exhausted written =>
          dsimp only
          rw [finish_eq hext.cursor_le]
          rfl

theorem scratch_eq {α : Type} {inspect : Bytes → Checked (Option α)} {parse : Bytes → Option α}
    (h : ∀ text, inspect text = .ok (parse text)) (raw : Bytes) :
    scratch inspect raw arena = .ok (Reading.scratch parse raw arena) := by
  rw [scratch, text_eq hfits, ok_bind, Reading.scratch]
  cases htext : Reading.text raw arena with
  | malformed | overflow => rfl
  | accepted span written =>
      have haccepted : ParameterKind.text.read raw arena = .accepted span written := htext
      have hext := (read_accepted hfits haccepted).1
      rw [text_accepted htext]
      dsimp only
      rw [h, ok_bind]
      show Except.ok (Reading.ofOption _ (written.truncate arena.cursor)) = _
      rw [hext.truncate]

theorem readValue_eq (kind : ParameterKind) (raw : Bytes) :
    readValue kind raw arena = .ok (kind.read raw arena) := by
  cases kind with
  | text => exact text_eq hfits raw
  | status =>
      exact scratch_eq hfits
        (fun text => Eq.refl (Except.ok ((Status.ofLiteral? text).map some))) raw
  | keys => exact scratch_eq hfits (fun text => pushNames_eq .empty _) raw
  | sex | flag | order => rfl
  | signed =>
      show (signed raw >>= _) = _
      rw [signed_eq]
      rfl
  | count | limit =>
      show (unsigned raw >>= _) = _
      rw [unsigned_eq]
      rfl
  | code =>
      show (unsigned raw >>= _) = _
      rw [unsigned_eq, ok_bind]
      exact congrArg (fun code => Except.ok (Reading.ofOption code arena))
        (plain?_filter (by decide) (by decide) raw)

end Values

end Intake.Checked
