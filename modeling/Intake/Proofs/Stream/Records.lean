import Intake.Proofs.Record.Whole
import Intake.Stream

/-!
# The records of a file

A stream finds the next record by its opening brace and leaves it in one of two ways: where the decoder
says that the record is complete, or where the brackets are balanced when the decoder has found a fault.
Of a whole object both are the same place. So each call answers for one record, as if that record were
all there is, and the next call starts behind it.
-/

namespace Intake.Stream

open Record (IsObject Json Sealed decode decode_isObject)

/-- What the call number `i` does, counted from zero, when every call is given the same account. -/
def call (s : Stream) (account : Account) : Nat → Step
  | 0 => s.next account
  | i + 1 => call (s.next account).stream (s.next account).account i

/-- Bytes that neither start a record nor end the array, such as whitespace and commas. -/
def Separator (bs : Bytes) : Prop := ∀ b ∈ bs, b ≠ Byte.openBrace ∧ b ≠ Byte.closeSquare

/-- Records, each with what separates it from the next. -/
def listing (records : List (Bytes × Bytes)) : Bytes :=
  records.flatMap fun (record, separator) => record ++ separator

/-- The item of a record with such an answer. -/
def Item.of (answer : Record.Decoded) : Item :=
  match answer.result with
  | .ok _ => .decoded
  | .error fault => .skipped fault

def Item.isDecoded : Item → Bool
  | decoded => true
  | skipped _ => false

variable {s : Stream}

/-! ### Looking for a record -/

theorem seek?_of_separator {separator rest : Bytes} {c : Cursor} {b : UInt8} (h : Separator separator)
    (hb : b = Byte.openBrace ∨ b = Byte.closeSquare) (hc : c.rest = separator ++ b :: rest) :
    seek? c = if b = Byte.openBrace then some (c.advance separator.length) else none := by
  have hskip : (c.skipWhile fun b => b != Byte.openBrace && b != Byte.closeSquare) =
      c.advance separator.length := by
    refine Cursor.skipWhile_of_append (fun b hb => ?_) ?_ hc
    · simpa using h b hb
    · rcases hb with rfl | rfl <;> rfl
  simp only [seek?, hskip, Cursor.rest_advance hc]

theorem seek?_toEnd (c : Cursor) : seek? c.toEnd = none := rfl

/-! ### One call -/

theorem next_of_seek?_eq_none (account : Account) (hs : s.truncated = false)
    (h : seek? s.cursor = none) :
    s.next account = ⟨none, { s with cursor := s.cursor.toEnd }, account, []⟩ := by
  simp only [next, hs, Bool.false_eq_true, if_false, h]

/-- A call that meets a whole object answers for it alone and leaves the rest. -/
theorem next_of_isObject (account : Account) {separator record rest : Bytes} (hs : s.truncated = false)
    (hsep : Separator separator) (hrecord : IsObject record)
    (hc : s.cursor.rest = separator ++ (record ++ rest)) :
    let answer := decode s.options account record
    let step := s.next account
    step.item = some (.of answer) ∧ step.account = answer.account ∧
      step.stream =
        { s with
          cursor := (s.cursor.advance separator.length).advance record.length
          decoded := s.decoded + if (Item.of answer).isDecoded then 1 else 0
          skipped := s.skipped + if !(Item.of answer).isDecoded then 1 else 0 } := by
  intro answer step
  obtain ⟨tail, htail⟩ := Record.exists_cons_of_isObject hrecord
  have hseek : seek? s.cursor = some (s.cursor.advance separator.length) := by
    have hfront : s.cursor.rest = separator ++ Byte.openBrace :: (tail ++ rest) := by
      rw [hc, htail, List.cons_append]
    exact (seek?_of_separator hsep (.inl rfl) hfront).trans (if_pos rfl)
  have hrest := Cursor.rest_advance hc
  obtain ⟨hdecode, hresult⟩ := decode_isObject s.options account hrecord rest
  rcases hresult with hresult | ⟨fault, hresult⟩
  · have hitem : Item.of answer = .decoded := by
      simp only [Item.of, answer, hresult]
    simp only [step, next, hs, Bool.false_eq_true, if_false, hseek, hrest, hdecode, hresult, hitem]
    exact ⟨trivial, rfl, rfl⟩
  · have hitem : Item.of answer = .skipped fault := by
      simp only [Item.of, answer, hresult]
    have hend := Record.balancedEnd?_of_isObject hrecord hrest
    simp only [step, next, hs, Bool.false_eq_true, if_false, hseek, hrest, hdecode, hresult, hitem,
      hend]
    exact ⟨trivial, rfl, rfl⟩

/-! ### All calls -/

theorem call_of_seek?_eq_none (account : Account) (hs : s.truncated = false)
    (h : seek? s.cursor = none) (i : Nat) :
    s.call account i = ⟨none, { s with cursor := s.cursor.toEnd }, account, []⟩ := by
  induction i generalizing s with
  | zero => exact next_of_seek?_eq_none account hs h
  | succ i ih =>
      rw [call, next_of_seek?_eq_none account hs h]
      exact ih (s := { s with cursor := s.cursor.toEnd }) hs (seek?_toEnd _)

/-- What calls make of the listed records, from in front of the first of them on. -/
theorem call_listing (account : Account) {separator rest : Bytes} {records : List (Bytes × Bytes)}
    (hs : s.truncated = false) (hsep : Separator separator)
    (hrecords : ∀ r ∈ records, IsObject r.1 ∧ Separator r.2)
    (hc : s.cursor.rest = separator ++ (listing records ++ Byte.closeSquare :: rest)) :
    (∀ i (hi : i < records.length),
      let answer := decode s.options account records[i].1
      (s.call account i).item = some (.of answer) ∧ (s.call account i).account = answer.account) ∧
    ∀ i, records.length ≤ i →
      let step := s.call account i
      step.item = none ∧ step.stream.truncated = false ∧
        step.stream.decoded = s.decoded +
          records.countP (fun r => (Item.of (decode s.options account r.1)).isDecoded) ∧
        step.stream.skipped = s.skipped +
          records.countP (fun r => !(Item.of (decode s.options account r.1)).isDecoded) := by
  induction records generalizing s account separator with
  | nil =>
      refine ⟨fun i hi => absurd hi (Nat.not_lt_zero i), fun i _ => ?_⟩
      have hnone : seek? s.cursor = none := (seek?_of_separator hsep (.inr rfl) hc).trans rfl
      rw [call_of_seek?_eq_none account hs hnone]
      exact ⟨rfl, hs, rfl, rfl⟩
  | cons first records ih =>
      obtain ⟨record, after⟩ := first
      obtain ⟨hrecord, hafter⟩ := hrecords (record, after) (List.mem_cons_self ..)
      have hcons : s.cursor.rest = separator ++
          (record ++ (after ++ (listing records ++ Byte.closeSquare :: rest))) := by
        rw [hc]
        simp [listing]
      obtain ⟨hitem, haccount, hstream⟩ := next_of_isObject account hs hsep hrecord hcons
      -- The account that the next calls are given has another content, but the same capacity.
      have hcongr : ∀ bytes, decode s.options (s.next account).account bytes =
          decode s.options account bytes := fun bytes =>
        Record.decode_congr s.options (haccount ▸ Record.capacity_decode s.options account record) bytes
      have hrest : (s.next account).stream.cursor.rest =
          after ++ (listing records ++ Byte.closeSquare :: rest) := by
        rw [hstream]
        exact Cursor.rest_advance (Cursor.rest_advance hcons)
      have hactive : (s.next account).stream.truncated = false := by
        rw [hstream]
        exact hs
      obtain ⟨hrows, hend⟩ := ih (s.next account).account hactive hafter
        (fun r hr => hrecords r (List.mem_cons_of_mem _ hr)) hrest
      have hoptions : (s.next account).stream.options = s.options := by rw [hstream]
      simp only [hoptions, hcongr] at hrows hend
      refine ⟨fun i hi => ?_, fun i hi => ?_⟩
      · cases i with
        | zero => exact ⟨hitem, haccount⟩
        | succ i => exact hrows i (Nat.lt_of_succ_lt_succ hi)
      · cases i with
        | zero => exact absurd hi (Nat.not_succ_le_zero _)
        | succ i =>
            obtain ⟨hnone, htrunc, hdecoded, hskipped⟩ := hend i (Nat.le_of_succ_le_succ hi)
            refine ⟨hnone, htrunc, hdecoded.trans ?_, hskipped.trans ?_⟩
            · rw [hstream, List.countP_cons]
              simp only
              omega
            · rw [hstream, List.countP_cons]
              simp only
              omega

/-- **One item for each record.** Of a file that lists objects, the calls yield one item each, in order,
and none after the last. The item and the account are those of the object alone: the object fills all
of its own bytes, or it has the fault that is reported. What stands before the list, between the
objects and behind the list makes no difference. -/
theorem call_records (options : Options) (account : Account) {before separator after : Bytes}
    {records : List (Bytes × Bytes)} (hbefore : Byte.openSquare ∉ before)
    (hsep : Separator separator) (hrecords : ∀ r ∈ records, IsObject r.1 ∧ Separator r.2) :
    let file := before ++ Byte.openSquare ::
      (separator ++ (listing records ++ Byte.closeSquare :: after))
    let s := new options file
    (∀ i (hi : i < records.length),
      let answer := decode options account records[i].1
      let step := s.call account i
      step.account = answer.account ∧
        (answer.result = .ok (.complete records[i].1.length) ∧ step.item = some .decoded ∨
          ∃ fault, answer.result = .error fault ∧ step.item = some (.skipped fault))) ∧
    ∀ i, records.length ≤ i →
      let step := s.call account i
      step.item = none ∧ step.stream.truncated = false ∧
        step.stream.decoded =
          records.countP (fun r => (Item.of (decode options account r.1)).isDecoded) ∧
        step.stream.skipped =
          records.countP (fun r => !(Item.of (decode options account r.1)).isDecoded) := by
  intro file s
  have hskip : (Cursor.start file).skipWhile (· != Byte.openSquare) =
      (Cursor.start file).advance before.length := by
    apply Cursor.skipWhile_of_append (fun b hb => ?_) (by decide) rfl
    have hne : b ≠ Byte.openSquare := fun h => hbefore (h ▸ hb)
    simpa using hne
  have hrest : ((Cursor.start file).advance before.length).rest =
      Byte.openSquare :: (separator ++ (listing records ++ Byte.closeSquare :: after)) :=
    Cursor.rest_advance rfl
  have hc : s.cursor.rest = separator ++ (listing records ++ Byte.closeSquare :: after) := by
    simp only [s, new, hskip, hrest, if_neg (List.cons_ne_nil _ _), Cursor.advance_rest,
      List.drop_succ_cons, List.drop_zero]
  obtain ⟨hrows, hend⟩ := call_listing account rfl hsep hrecords hc
  have hzero : s.decoded = 0 ∧ s.skipped = 0 := ⟨rfl, rfl⟩
  rw [hzero.1, hzero.2] at hend
  simp only [Nat.zero_add] at hend
  refine ⟨fun i hi => ?_, hend⟩
  obtain ⟨hitem, haccount⟩ := hrows i hi
  refine ⟨haccount, ?_⟩
  obtain ⟨hobject, -⟩ := hrecords records[i] (List.getElem_mem hi)
  rcases (decode_isObject options account hobject []).2 with hresult | ⟨fault, hresult⟩
  · refine .inl ⟨hresult, hitem.trans ?_⟩
    show some (Item.of (decode options account _)) = _
    rw [Item.of, hresult]
  · refine .inr ⟨fault, hresult, hitem.trans ?_⟩
    show some (Item.of (decode options account _)) = _
    rw [Item.of, hresult]

/-- A file of two objects, the second of which is at fault. -/
theorem call_records_pair :
    let s := new {} (Utf8.ofString "[\x7b\x7d,\x7b\"id\":true\x7d]")
    let account := Account.new {}
    (s.call account 0).item = some .decoded ∧ (s.call account 1).item ≠ none ∧
      (s.call account 2).item = none := by
  intro s account
  have hempty : Json (.list .brace) 1 (Byte.openBrace :: ([] ++ [Byte.closeBrace])) :=
    .empty .brace .nil
  have hkey : Sealed [0x69, 0x64] :=
    .plain (by decide) (by decide) (.plain (by decide) (by decide) .nil)
  have hvalue : Json (.item .square) 0 ([] ++ (Utf8.ofString "true" ++ [])) :=
    .element .nil (.word (by decide)) .nil
  have hmember : Json (.item .brace) 0 ([] ++ Byte.quote :: ([0x69, 0x64] ++ Byte.quote ::
      ([] ++ Byte.colon :: ([] ++ (Utf8.ofString "true" ++ []))))) := .member .nil hkey .nil hvalue
  have hcomma : Separator [Byte.comma] := List.forall_mem_singleton.2 (by decide)
  have hsep : Separator [] := fun _ hb => absurd hb List.not_mem_nil
  let records : List (Bytes × Bytes) :=
    [([Byte.openBrace, Byte.closeBrace], [Byte.comma]), (Utf8.ofString "\x7b\"id\":true\x7d", [])]
  have hrecords : ∀ r ∈ records, IsObject r.1 ∧ Separator r.2 := by
    simp only [records, List.forall_mem_cons, List.not_mem_nil, false_imp_iff, implies_true, and_true]
    exact ⟨⟨⟨1, hempty⟩, hcomma⟩, ⟨1, .full (.last hmember)⟩, hsep⟩
  have hbefore : Byte.openSquare ∉ ([] : Bytes) := List.not_mem_nil
  have hfile : [] ++ Byte.openSquare :: ([] ++ (listing records ++ Byte.closeSquare :: [])) =
      Utf8.ofString "[\x7b\x7d,\x7b\"id\":true\x7d]" := by decide
  obtain ⟨hitems, hend⟩ := call_records {} account hbefore hsep hrecords
  rw [hfile] at hitems hend
  refine ⟨?_, ?_, (hend 2 (Nat.le_refl 2)).1⟩
  · rcases (hitems 0 (by decide)).2 with ⟨-, hitem⟩ | ⟨fault, hfault, -⟩
    · exact hitem
    · cases hfault
  · rcases (hitems 1 (by decide)).2 with ⟨-, hitem⟩ | ⟨fault, -, hitem⟩
    · exact fun h => nomatch hitem.symm.trans h
    · exact fun h => nomatch hitem.symm.trans h

end Intake.Stream
