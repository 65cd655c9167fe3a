import Intake.Proofs.Record.Blame.Decode
import Intake.Proofs.Stream.Run

/-!
# Getting past a fault

Behind a record with a fault the stream goes on where the brackets are balanced. These are counted by
another scanner than the decoder, which takes both kinds of them for the same and does not know words. On
text that is well formed both agree on where an object ends. On text that is not they disagree, but only
one way: as long as the decoder is inside of an object, the count is at least as large as the number of
objects and arrays around it. So the decoder has found its fault, and seen all that it looked at, before
the count is down to zero.
-/

namespace Intake

namespace Stream

open Record (closingQuote? split_of_closingQuote? closingQuote?_of_sealed closingQuote?_append)

variable {n : Nat} {c d : Cursor} {bs : Bytes}

/-! ### The bytes up to the end -/

theorem closingQuote?_of_append {more : Bytes} {start index : Nat}
    (h : closingQuote? start (bs ++ more) = some index) (hlt : index < start + bs.length) :
    closingQuote? start bs = some index := by
  obtain ⟨body, rest, hsplit, rfl, hbody⟩ := split_of_closingQuote? h
  have hwhole : body ++ [Byte.quote] <+: bs ++ more :=
    ⟨rest, by rw [hsplit, List.append_assoc, List.singleton_append]⟩
  have hfront : body ++ [Byte.quote] <+: bs := by
    refine List.prefix_of_prefix_length_le hwhole (List.prefix_append bs more) ?_
    rw [List.length_append, List.length_singleton]
    omega
  obtain ⟨tail, rfl⟩ := hfront
  rw [List.append_assoc, List.singleton_append]
  exact closingQuote?_of_sealed hbody start tail

theorem exists_cons_of_rest {b : UInt8} {rest : Bytes} (hrest : c.rest = b :: rest)
    (hc : c.rest = bs ++ d.rest) (hlt : d.rest.length ≤ (c.advance 1).rest.length) :
    ∃ tail, bs = b :: tail ∧ (c.advance 1).rest = tail ++ d.rest := by
  rw [Cursor.rest_advance_one hrest] at hlt ⊢
  cases bs with
  | nil =>
      rw [hrest, List.nil_append] at hc
      rw [← hc, List.length_cons] at hlt
      omega
  | cons a tail =>
      rw [hrest, List.cons_append] at hc
      obtain ⟨rfl, htail⟩ := List.cons.inj hc
      exact ⟨tail, rfl, htail⟩

/-- Where the brackets are balanced does not depend on what follows, nor on what comes before. -/
theorem balancedEnd?_congr (h : balancedEnd? n c = some d) (hc : c.rest = bs ++ d.rest) (pos : Nat)
    (more : Bytes) : balancedEnd? n ⟨pos, bs ++ more⟩ = some ⟨pos + bs.length, more⟩ := by
  fun_induction balancedEnd? n c generalizing bs pos with
  | case1 | case5 => cases h
  | case2 n c b rest hrest hlt hopen ih =>
      obtain ⟨tail, rfl, htail⟩ := exists_cons_of_rest hrest hc (Nat.le_of_lt (reaches_of_balancedEnd? h).2)
      rw [balancedEnd?_cons rfl, if_pos hopen]
      refine (ih h htail (pos + 1)).trans ?_
      rw [List.length_cons, Nat.add_right_comm, Nat.add_assoc]
  | case3 n c b rest hrest hlt hopen hclose hdepth =>
      cases h
      obtain ⟨tail, rfl, htail⟩ := exists_cons_of_rest hrest hc (Nat.le_refl _)
      obtain rfl : tail = [] := List.append_left_eq_self.1 htail.symm
      rw [balancedEnd?_cons rfl, if_neg hopen, if_pos hclose, if_pos hdepth]
      rfl
  | case4 n c b rest hrest hlt hopen hclose hdepth ih =>
      obtain ⟨tail, rfl, htail⟩ := exists_cons_of_rest hrest hc (Nat.le_of_lt (reaches_of_balancedEnd? h).2)
      rw [balancedEnd?_cons rfl, if_neg hopen, if_pos hclose, if_neg hdepth]
      refine (ih h htail (pos + 1)).trans ?_
      rw [List.length_cons, Nat.add_right_comm, Nat.add_assoc]
  | case6 n c rest index hquote hrest hlt hopen hclose hlt' ih =>
      have hshort := (reaches_of_balancedEnd? h).2
      rw [Cursor.advance_rest, List.length_drop] at hshort
      obtain ⟨tail, rfl, htail⟩ := exists_cons_of_rest hrest hc (by omega)
      rw [htail, List.length_append] at hshort
      have hle : index + 1 ≤ tail.length := by omega
      have hdrop : ((c.advance 1).advance (index + 1)).rest = tail.drop (index + 1) ++ d.rest := by
        rw [Cursor.advance_rest, htail, List.drop_append_of_le_length hle]
      rw [htail] at hquote
      have hquote' := closingQuote?_append (closingQuote?_of_append hquote (by omega)) more
      refine (Record.balancedEnd?_string n rfl hquote').trans ?_
      have hnext := ih h hdrop (pos + (index + 2))
      have hlength : pos + (index + 2) + (tail.drop (index + 1)).length = pos + (Byte.quote :: tail).length := by
        rw [List.length_drop, List.length_cons]
        omega
      rw [hlength, ← List.drop_append_of_le_length hle] at hnext
      exact hnext
  | case7 n c b rest hrest hlt hopen hclose hquote ih =>
      obtain ⟨tail, rfl, htail⟩ := exists_cons_of_rest hrest hc (Nat.le_of_lt (reaches_of_balancedEnd? h).2)
      rw [balancedEnd?_cons rfl, if_neg hopen, if_neg hclose, if_neg hquote]
      refine (ih h htail (pos + 1)).trans ?_
      rw [List.length_cons, Nat.add_right_comm, Nat.add_assoc]

end Stream

/-! ### The brackets around the decoder -/

namespace Record

open Intake.Stream (opens closes balancedEnd? balancedEnd?_cons reaches_of_balancedEnd?)

variable {stop c : Cursor} {b : UInt8} {rest : Bytes} {n : Nat}

/-- Within a word the count of open brackets can only rise. -/
theorem balancedEnd?_skipWord (h : balancedEnd? n c = some stop) :
    ∃ m, n ≤ m ∧ balancedEnd? m (c.skipWhile fun b => !endsWord b) = some stop := by
  obtain ⟨pos, bs⟩ := c
  induction bs generalizing n pos with
  | nil => exact ⟨n, Nat.le_refl n, h⟩
  | cons b rest ih =>
      cases hends : endsWord b with
      | true =>
          rw [Cursor.skipWhile_of_neg rfl (by simp [hends])]
          exact ⟨n, Nat.le_refl n, h⟩
      | false =>
          rw [Cursor.skipWhile_cons rfl (by simp [hends])]
          by_cases hopen : opens b
          · rw [balancedEnd?_cons rfl, if_pos hopen] at h
            obtain ⟨m, hm, hword⟩ := ih _ h
            exact ⟨m, Nat.le_of_succ_le hm, hword⟩
          · have hinert := isInert_of_letter hends hopen
            rw [balancedEnd?_inert n rfl hinert] at h
            exact ih _ h

/-- The fence of a text that the count of brackets ends at `stop`. The count may be larger than the number
of brackets that a reader knows to be open. -/
def Fence.balanced (stop : Cursor) : Fence where
  inside k c := 0 < k → ∃ n, k ≤ n ∧ balancedEnd? n c = some stop
  rest_ne_nil {k c} h hnil := by
    obtain ⟨n, -, hn⟩ := h (Nat.succ_pos k)
    have hlt := (reaches_of_balancedEnd? hn).2
    rw [hnil] at hlt
    exact Nat.not_lt_zero _ hlt
  enter {k c b rest} h hc hb _ := by
    obtain ⟨n, hk, hn⟩ := h (Nat.succ_pos k)
    rw [balancedEnd?_cons hc, if_pos hb] at hn
    exact ⟨n + 1, Nat.succ_le_succ hk, hn⟩
  leave {k c b rest} h hc hb hpos := by
    obtain ⟨n, hk, hn⟩ := h (Nat.succ_pos k)
    have hdepth : ¬ n ≤ 1 := by omega
    rw [balancedEnd?_cons hc, if_neg (not_opens_of_closes hb), if_pos hb, if_neg hdepth] at hn
    exact ⟨n - 1, Nat.le_sub_one_of_lt hk, hn⟩
  string {k c rest} h hc := by
    obtain ⟨n, hk, hn⟩ := h (Nat.succ_pos k)
    cases hquote : closingQuote? 0 rest with
    | none =>
        have hopen : ¬ opens Byte.quote := by decide
        have hclose : ¬ closes Byte.quote := by decide
        rw [balancedEnd?_cons hc, if_neg hopen, if_neg hclose, if_pos rfl, Cursor.rest_advance_one hc,
          hquote] at hn
        cases hn
    | some index =>
        rw [balancedEnd?_string n hc hquote] at hn
        exact ⟨index, rfl, fun _ => ⟨n, hk, hn⟩⟩
  inert {k c b rest} h hc hb _ := by
    obtain ⟨n, hk, hn⟩ := h (Nat.succ_pos k)
    rw [balancedEnd?_inert n hc hb] at hn
    exact ⟨n, hk, hn⟩
  word {k c b rest} h hc hopen hends _ := by
    obtain ⟨n, hk, hn⟩ := h (Nat.succ_pos k)
    obtain ⟨m, hm, hword⟩ := balancedEnd?_skipWord hn
    exact ⟨m, Nat.le_trans hk hm, hword⟩

/-! ### Faults lie before the end -/

variable {options : Options} {account : Account} {e : Fault} {o : Nat}

/-- Behind the end that the brackets give, nothing matters to the decoder. -/
theorem decode_of_balanced {bs : Bytes} (hopen : bs.head? = some Byte.openBrace)
    (hend : balancedEnd? 0 (.start bs) = some stop) (more : Bytes) :
    decode options account (bs ++ more) = decode options account bs := by
  obtain ⟨tail, rfl⟩ := List.head?_eq_some_iff.1 hopen
  have hbrace : opens Byte.openBrace := by decide
  have hin : (Fence.balanced stop).inside 1 ⟨1, tail⟩ := by
    intro _
    rw [balancedEnd?_cons rfl, if_pos hbrace] at hend
    exact ⟨1, Nat.le_refl 1, hend⟩
  exact (decode_of_inside options account hin more).1

theorem fault_before_end {after : Cursor} (hopen : c.rest.head? = some Byte.openBrace)
    (hend : balancedEnd? 0 c = some after) (h : (decode options account c.rest).result = .error e)
    (ho : e.offset? = some o) :
    c.pos + o < after.pos ∧
      decode options account (c.rest.take (after.pos - c.pos)) = decode options account c.rest := by
  obtain ⟨⟨bs, hc, hpos⟩, hlt⟩ := reaches_of_balancedEnd? hend
  have hcut := Stream.balancedEnd?_congr hend hc 0 []
  rw [List.append_nil] at hcut
  have hhead : bs.head? = some Byte.openBrace := by
    rw [hc, List.head?_append] at hopen
    cases bs with
    | nil =>
        rw [hc, List.nil_append] at hlt
        exact absurd hlt (Nat.lt_irrefl _)
    | cons b tail => exact hopen
  have hdecode : decode options account c.rest = decode options account bs := by
    rw [hc]
    exact decode_of_balanced hhead hcut after.rest
  rw [hdecode] at h
  have hoffset := lt_length_of_decode h ho
  refine ⟨by omega, ?_⟩
  rw [hdecode, hpos, Nat.add_sub_cancel_left, hc, List.take_left]

end Record

/-! ### The stream -/

namespace Stream

open Record (Fault decode)

variable {options : Options} {account : Account} {input : Bytes} {e : Fault} {o : Nat} {s : Stream}

theorem cursor_next_of_fault {record : Cursor} (htruncated : s.truncated = false)
    (hseek : seek? s.cursor = some record)
    (h : (decode s.options account record.rest).result = .error e) :
    (s.next account).stream.cursor = (balancedEnd? 0 record).getD s.cursor.toEnd := by
  simp only [next, htruncated, Bool.false_eq_true, if_false, hseek, h]

/-- **The stream gets past a fault.** The brackets of an input that begins with one are not balanced
before the byte at which the decoder has found a fault, and nothing behind the place where they are was
looked at by the decoder. So a stream that meets a record with a fault goes on behind that byte, and so
do all records that it meets later. -/
theorem resumes_past_fault (hopen : input.head? = some Byte.openBrace)
    (h : (decode options account input).result = .error e) (ho : e.offset? = some o) :
    (∀ stop, balancedEnd? 0 (.start input) = some stop →
      o < stop.pos ∧ decode options account (input.take stop.pos) = decode options account input) ∧
    ∀ (file : Bytes) (s : Stream) (record : Cursor), Within file s → s.options = options →
      s.truncated = false → seek? s.cursor = some record → record.rest = input →
        let after := (s.next account).stream
        record.pos + o < after.position ∧
          ∀ calls, ∀ m ∈ (after.run calls).met, record.pos + o < m.span.offset := by
  constructor
  · intro stop hend
    obtain ⟨hlt, hdecode⟩ := Record.fault_before_end hopen hend h ho
    exact ⟨Nat.zero_add o ▸ hlt, hdecode⟩
  · rintro file s record hs rfl htruncated hseek rfl after
    have hcursor := cursor_next_of_fault htruncated hseek h
    have hpast : record.pos + o < after.position := by
      show _ < (s.next account).stream.cursor.pos
      rw [hcursor]
      cases hend : balancedEnd? 0 record with
      | some stop => exact (Record.fault_before_end hopen hend h ho).1
      | none =>
          rw [Option.getD_none, toEnd_of_reaches (reaches_of_seek? hseek).1]
          exact Nat.add_lt_add_left (Record.lt_length_of_decode h ho) record.pos
    refine ⟨hpast, fun calls m hm => ?_⟩
    have hwithin : Within file after := hs.moves (moves_next s account)
    exact Nat.lt_of_lt_of_le hpast ((journey_run hwithin calls).1.passed m hm).1

/-- Brackets that do not match: the decoder refuses the square one, which the count takes for the end of
the inner object. -/
theorem resumes_past_fault_mismatch :
    let file := Utf8.ofString "[\x7b\"x\":\x7b\"id\":1]\x7d,\x7b\"id\":2\x7d]"
    let input := file.drop 1
    let s := new {} file
    (decode {} (.new {}) input).result = .error (.unexpectedByte 0x5D 12) ∧
      decode {} (.new {}) (input.take 14) = decode {} (.new {}) input ∧
      13 < (s.next (.new {})).stream.position := by
  intro file input s
  have hfault : (decode {} (.new {}) input).result = .error (.unexpectedByte 0x5D 12) := by
    decide +kernel
  have hopen : input.head? = some Byte.openBrace := by decide
  have hend : balancedEnd? 0 (.start input) = some ⟨14, input.drop 14⟩ := by decide +kernel
  have hseek : seek? s.cursor = some ⟨1, input⟩ := by decide
  obtain ⟨hbalanced, hstream⟩ := resumes_past_fault hopen hfault rfl
  obtain ⟨-, hcut⟩ := hbalanced _ hend
  obtain ⟨hpast, -⟩ := hstream file s _ (within_new {} file) rfl rfl hseek rfl
  exact ⟨hfault, hcut, hpast⟩

end Stream

end Intake
