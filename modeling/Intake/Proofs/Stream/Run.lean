import Intake.Proofs.Stream.Records

/-!
# Runs of a stream

A stream only ever moves forward. A call that meets a record ends behind it, whether the decoder found
the end of the record or its brackets did, and a call that meets none ends the stream, at the end of the
input. So records are met in order and none twice, every call comes to an end, and the counters count
what was met. `Moves` says once what a call can do, and `Journey` what several calls come to.
-/

namespace Intake.Stream

/-- How many bytes of the input the stream has passed. -/
def position (s : Stream) : Nat := s.cursor.pos

/-- A record that a call has met: what became of it, and the stretch of the input that was passed from
its opening brace on. -/
structure Met where
  item : Item
  span : Span

/-- The record that the next call meets. -/
def met? (s : Stream) (account : Account) : Option Met := do
  let item ← (s.next account).item
  let record ← seek? s.cursor
  return ⟨item, .between record.pos (s.next account).stream.position⟩

/-! ### One call -/

/-- What a call can do to a stream, and what it meets. -/
inductive Moves (s : Stream) : Option Met → Stream → Prop
  | stays (htruncated : s.truncated) : Moves s none s
  | ends (htruncated : s.truncated = false) (hseek : seek? s.cursor = none) :
      Moves s none { s with cursor := s.cursor.toEnd }
  | cut (htruncated : s.truncated = false) :
      Moves s none { s with cursor := s.cursor.toEnd, truncated := true }
  | decodes {record after : Cursor} (htruncated : s.truncated = false)
      (hseek : seek? s.cursor = some record) (hreach : record.Reaches after)
      (hlt : after.rest.length < record.rest.length) :
      Moves s (some ⟨.decoded, .between record.pos after.pos⟩)
        { s with cursor := after, decoded := s.decoded + 1 }
  | skips {record after : Cursor} {fault : Record.Fault} {truncated : Bool}
      (hseek : seek? s.cursor = some record) (hreach : record.Reaches after)
      (hlt : after.rest.length < record.rest.length) (hend : truncated → after.rest = []) :
      Moves s (some ⟨.skipped fault, .between record.pos after.pos⟩)
        { s with cursor := after, skipped := s.skipped + 1, truncated }

theorem reaches_toEnd (c : Cursor) : c.Reaches c.toEnd :=
  ⟨c.rest, (List.append_nil _).symm, rfl⟩

theorem toEnd_of_rest {c : Cursor} (h : c.rest = []) : c.toEnd = c := by
  obtain ⟨pos, rest⟩ := c
  obtain rfl : rest = [] := h
  rfl

theorem toEnd_of_reaches {c d : Cursor} (h : c.Reaches d) : c.toEnd = d.toEnd := by
  rw [Cursor.toEnd, Cursor.toEnd, h.pos_add_length]

theorem moves_next (s : Stream) (account : Account) :
    Moves s (s.met? account) (s.next account).stream := by
  unfold met? next
  by_cases htruncated : s.truncated
  · simp only [if_pos htruncated]
    exact .stays htruncated
  have hactive : s.truncated = false := Bool.eq_false_iff.2 htruncated
  simp only [if_neg htruncated]
  cases hseek : seek? s.cursor with
  | none => exact .ends hactive hseek
  | some record =>
      obtain ⟨hreach, -, hpos⟩ := reaches_of_seek? hseek
      dsimp only
      cases hresult : (Record.decode s.options account record.rest).result with
      | ok progress =>
          cases progress with
          | complete consumed =>
              obtain ⟨hconsumed, hle⟩ := Record.consumed_of_decode hresult
              refine .decodes hactive hseek (record.reaches_advance hle) ?_
              rw [Cursor.advance_rest, List.length_drop]
              omega
          | incomplete missing => exact .cut hactive
      | error fault =>
          cases hend : balancedEnd? 0 record with
          | some after =>
              obtain ⟨hafter, hlt⟩ := reaches_of_balancedEnd? hend
              exact .skips hseek hafter hlt fun h => absurd h Bool.false_ne_true
          | none =>
              have htoEnd := toEnd_of_reaches hreach
              refine .skips hseek ?_ ?_ fun _ => rfl
              · rw [Option.getD_none, htoEnd]
                exact reaches_toEnd record
              · exact hpos

/-- A call returns what became of the record that it has met. -/
theorem map_item_met? (s : Stream) (account : Account) :
    (s.met? account).map (·.item) = (s.next account).item := by
  unfold met?
  cases hitem : (s.next account).item with
  | none => rfl
  | some item =>
      cases hseek : seek? s.cursor with
      | some record => rfl
      | none =>
          unfold next at hitem
          split at hitem
          · cases hitem
          · rw [hseek] at hitem
            cases hitem

section Item

variable {s : Stream} {account : Account}

theorem item_of_met? {met : Met} (h : s.met? account = some met) :
    (s.next account).item = some met.item := by
  rw [← map_item_met?, h]
  rfl

theorem met?_of_item_eq_none (h : (s.next account).item = none) : s.met? account = none := by
  rw [← Option.map_eq_none_iff, map_item_met?]
  exact h

theorem exists_met? {item : Item} (h : (s.next account).item = some item) :
    ∃ met, s.met? account = some met ∧ met.item = item :=
  Option.map_eq_some_iff.1 ((map_item_met? s account).trans h)

end Item

/-! ### Several calls -/

/-- The stream is at a place of the input, which is the end if the input ended within a record. -/
def Within (input : Bytes) (s : Stream) : Prop :=
  (Cursor.start input).Reaches s.cursor ∧ (s.truncated → s.cursor.rest = [])

/-- What calls come to that led from one stream to another and met these records. -/
structure Journey (input : Bytes) (s : Stream) (met : List Met) (t : Stream) : Prop where
  decoded : t.decoded = s.decoded + met.countP (·.item.isDecoded)
  skipped : t.skipped = s.skipped + met.countP (!·.item.isDecoded)
  ordered : met.Pairwise fun a b => a.span.stop ≤ b.span.offset
  opens : ∀ m ∈ met, input[m.span.offset]? = some Byte.openBrace
  passed : ∀ m ∈ met,
    s.position ≤ m.span.offset ∧ m.span.offset < m.span.stop ∧ m.span.stop ≤ t.position
  length_le : s.position + met.length ≤ t.position

section Journey

variable {input : Bytes} {s t u : Stream} {met more : List Met}

theorem within_new (options : Options) (input : Bytes) : Within input (new options input) := by
  refine ⟨?_, fun h => absurd h Bool.false_ne_true⟩
  have hreach := (Cursor.start input).reaches_skipWhile (· != Byte.openSquare)
  simp only [new]
  split
  · exact hreach
  next hne =>
    refine hreach.trans (Cursor.reaches_advance _ ?_)
    exact Nat.succ_le_of_lt (List.length_pos_iff.2 hne)

theorem Within.position_add (h : Within input s) : s.position + s.cursor.rest.length = input.length :=
  (h.1.pos_add_length).trans (Nat.zero_add _)

theorem Within.moves (h : Within input s) {m : Option Met} (hm : Moves s m t) : Within input t := by
  cases hm with
  | stays => exact h
  | ends => exact ⟨h.1.trans (reaches_toEnd _), fun _ => rfl⟩
  | cut => exact ⟨h.1.trans (reaches_toEnd _), fun _ => rfl⟩
  | decodes hactive hseek hreach =>
      refine ⟨h.1.trans ((reaches_of_seek? hseek).1.trans hreach), fun htruncated => ?_⟩
      exact absurd (hactive.symm.trans htruncated) Bool.false_ne_true
  | skips hseek hreach _ hend => exact ⟨h.1.trans ((reaches_of_seek? hseek).1.trans hreach), hend⟩

theorem Journey.refl (input : Bytes) (s : Stream) : Journey input s [] s where
  decoded := rfl
  skipped := rfl
  ordered := .nil
  opens _ hm := absurd hm List.not_mem_nil
  passed _ hm := absurd hm List.not_mem_nil
  length_le := Nat.le_refl _

theorem Journey.position_le (h : Journey input s met t) : s.position ≤ t.position :=
  Nat.le_trans (Nat.le_add_right _ _) h.length_le

theorem Journey.trans (h : Journey input s met t) (h' : Journey input t more u) :
    Journey input s (met ++ more) u where
  decoded := by rw [h'.decoded, h.decoded, List.countP_append, Nat.add_assoc]
  skipped := by rw [h'.skipped, h.skipped, List.countP_append, Nat.add_assoc]
  ordered := by
    refine List.pairwise_append.2 ⟨h.ordered, h'.ordered, fun a ha b hb => ?_⟩
    exact Nat.le_trans (h.passed a ha).2.2 (h'.passed b hb).1
  opens m hm := (List.mem_append.1 hm).elim (h.opens m) (h'.opens m)
  passed m hm := by
    have hle := h.position_le
    have hle' := h'.position_le
    rcases List.mem_append.1 hm with hm | hm
    · obtain ⟨hstart, hlt, hstop⟩ := h.passed m hm
      omega
    · obtain ⟨hstart, hlt, hstop⟩ := h'.passed m hm
      omega
  length_le := by
    have hle := h.length_le
    have hle' := h'.length_le
    rw [List.length_append]
    omega

/-- A record starts at an opening brace, at or behind the place from which it was looked for. -/
theorem opens_of_seek? {c record : Cursor} (hc : (Cursor.start input).Reaches c)
    (h : seek? c = some record) :
    c.pos ≤ record.pos ∧ input[record.pos]? = some Byte.openBrace := by
  obtain ⟨hreach, hle, -⟩ := reaches_of_seek? h
  have hpos := hreach.pos_add_length
  obtain ⟨tail, htail⟩ : ∃ tail, record.rest = Byte.openBrace :: tail := by
    simp only [seek?] at h
    split at h
    · cases h
    next b tail hrest =>
      split at h
      next hb =>
        cases h
        exact ⟨tail, hb ▸ hrest⟩
      · cases h
  obtain ⟨front, hinput, hfront⟩ := hc.trans hreach
  have hinput' : input = front ++ record.rest := hinput
  have hfront' : record.pos = front.length := hfront.trans (Nat.zero_add _)
  refine ⟨by omega, ?_⟩
  rw [hinput', hfront', htail, List.getElem?_append_right (Nat.le_refl _), Nat.sub_self]
  rfl

theorem Journey.one (hs : Within input s) {record after : Cursor} {item : Item}
    (hseek : seek? s.cursor = some record) (hreach : record.Reaches after)
    (hlt : after.rest.length < record.rest.length) (hcursor : t.cursor = after)
    (hdecoded : t.decoded = s.decoded + if item.isDecoded then 1 else 0)
    (hskipped : t.skipped = s.skipped + if !item.isDecoded then 1 else 0) :
    Journey input s [⟨item, .between record.pos after.pos⟩] t := by
  obtain ⟨hstart, hopens⟩ := opens_of_seek? hs.1 hseek
  have hpos := hreach.pos_add_length
  have hstop : (Span.between record.pos after.pos).stop = after.pos := Span.stop_between (by omega)
  have hposition : t.position = after.pos := congrArg Cursor.pos hcursor
  constructor
  case decoded =>
    rw [List.countP_singleton]
    exact hdecoded
  case skipped =>
    rw [List.countP_singleton]
    exact hskipped
  case ordered => exact List.pairwise_singleton _ _
  case opens => exact List.forall_mem_singleton.2 hopens
  case passed =>
    refine List.forall_mem_singleton.2 ⟨hstart, ?_, ?_⟩
    · show record.pos < (Span.between record.pos after.pos).stop
      omega
    · show (Span.between record.pos after.pos).stop ≤ t.position
      omega
  case length_le =>
    rw [hposition, List.length_singleton]
    show s.cursor.pos + 1 ≤ after.pos
    omega

theorem Journey.of_moves (hs : Within input s) {m : Option Met} (hm : Moves s m t) :
    Journey input s m.toList t := by
  -- A call that meets nothing can only pass bytes.
  have hnothing (hle : s.position ≤ t.position) (hdecoded : t.decoded = s.decoded)
      (hskipped : t.skipped = s.skipped) : Journey input s [] t :=
    { Journey.refl input s with
      decoded := hdecoded
      skipped := hskipped
      passed := fun _ hm => absurd hm List.not_mem_nil
      length_le := hle }
  have hend : s.cursor.pos ≤ s.cursor.toEnd.pos := Nat.le_add_right _ _
  cases hm with
  | stays => exact .refl input s
  | ends => exact hnothing hend rfl rfl
  | cut => exact hnothing hend rfl rfl
  | decodes _ hseek hreach hlt => exact .one hs hseek hreach hlt rfl rfl rfl
  | skips hseek hreach hlt => exact .one hs hseek hreach hlt rfl rfl rfl

end Journey

/-! ### Calls -/

/-- The records that are met until a call meets none. -/
def metAll (s : Stream) (account : Account) : List Met :=
  match h : s.met? account with
  | none => []
  | some met =>
    have := length_next_lt (item_of_met? h)
    met :: metAll (s.next account).stream (s.next account).account
termination_by s.cursor.rest.length

/-- A call, with the account that it is given. -/
inductive Call : Type 1 where
  | next (account : Account)
  | forEach {β : Type} (visit : β → Account → β) (value : β) (account : Account)

/-- Where calls have left a stream, and the records that they met. -/
structure Trace where
  stream : Stream
  met : List Met

def perform (s : Stream) : Call → Trace
  | .next account => ⟨(s.next account).stream, (s.met? account).toList⟩
  | .forEach visit value account => ⟨(s.forEach visit value account).stream, s.metAll account⟩

def run (s : Stream) : List Call → Trace
  | [] => ⟨s, []⟩
  | call :: calls =>
    let first := s.perform call
    let rest := first.stream.run calls
    ⟨rest.stream, first.met ++ rest.met⟩

section Calls

variable {input : Bytes} {s : Stream}

theorem metAll_of_none {account : Account} (h : s.met? account = none) : s.metAll account = [] := by
  rw [metAll]
  split
  · rfl
  next hsome => cases h.symm.trans hsome

theorem metAll_of_some {account : Account} {met : Met} (h : s.met? account = some met) :
    s.metAll account = met :: metAll (s.next account).stream (s.next account).account := by
  rw [metAll]
  split
  next hnone => cases h.symm.trans hnone
  next hsome =>
    cases h.symm.trans hsome
    rfl

theorem rest_of_next (hs : Within input s) {account : Account} (h : (s.next account).item = none) :
    (s.next account).stream.cursor.rest = [] := by
  have hmoves := moves_next s account
  rw [met?_of_item_eq_none h] at hmoves
  generalize (s.next account).stream = t at hmoves
  cases hmoves with
  | stays htruncated => exact hs.2 htruncated
  | ends => rfl
  | cut => rfl

/-- Visiting records is calling until a call meets nothing. -/
theorem forEach_spec {β : Type} (visit : β → Account → β) (value : β) (account : Account)
    (hs : Within input s) :
    let drained := s.forEach visit value account
    Journey input s (s.metAll account) drained.stream ∧ Within input drained.stream ∧
      drained.stream.cursor.rest = [] ∧
      drained.count = (s.metAll account).countP (·.item.isDecoded) := by
  fun_induction forEach visit value s account with
  | case1 value s account step hitem =>
      have hnone := met?_of_item_eq_none hitem
      have hmoves := moves_next s account
      rw [hnone] at hmoves
      rw [metAll_of_none hnone]
      exact ⟨.of_moves hs hmoves, hs.moves hmoves, rest_of_next hs hitem, rfl⟩
  | case2 value s account step item hitem hlt visited value' rest ih =>
      obtain ⟨met, hmet, rfl⟩ := exists_met? hitem
      have hmoves := moves_next s account
      rw [hmet] at hmoves
      obtain ⟨hjourney, hwithin, hrest, hcount⟩ := ih (hs.moves hmoves)
      have hvisited : visited = met.item.isDecoded := by
        simp only [visited]
        cases met.item <;> rfl
      rw [metAll_of_some hmet]
      refine ⟨(Journey.of_moves hs hmoves).trans hjourney, hwithin, hrest, ?_⟩
      rw [List.countP_cons, ← hcount, ← hvisited]
      cases visited <;> rfl

theorem journey_perform (hs : Within input s) (call : Call) :
    Journey input s (s.perform call).met (s.perform call).stream ∧
      Within input (s.perform call).stream := by
  cases call with
  | next account =>
      have hmoves := moves_next s account
      exact ⟨.of_moves hs hmoves, hs.moves hmoves⟩
  | forEach visit value account =>
      obtain ⟨hjourney, hwithin, -⟩ := forEach_spec visit value account hs
      exact ⟨hjourney, hwithin⟩

theorem journey_run (hs : Within input s) (calls : List Call) :
    Journey input s (s.run calls).met (s.run calls).stream ∧ Within input (s.run calls).stream := by
  induction calls generalizing s with
  | nil => exact ⟨.refl input s, hs⟩
  | cons call calls ih =>
      obtain ⟨hfirst, hwithin⟩ := journey_perform hs call
      obtain ⟨hrest, hend⟩ := ih hwithin
      exact ⟨hfirst.trans hrest, hend⟩

/-! ### Streams that are at their end -/

section End

variable (h : s.cursor.rest = [])
include h

theorem next_of_rest (account : Account) : s.next account = ⟨none, s, account, []⟩ := by
  by_cases htruncated : s.truncated
  · rw [next, if_pos htruncated]
  · have hseek : seek? s.cursor = none := by
      rw [seek?, Cursor.skipWhile_of_nil h, h]
    rw [next_of_seek?_eq_none account (Bool.eq_false_iff.2 htruncated) hseek, toEnd_of_rest h]

theorem forEach_of_rest {β : Type} (visit : β → Account → β) (value : β) (account : Account) :
    s.forEach visit value account = ⟨value, 0, s, account, []⟩ := by
  have hnext := next_of_rest h account
  rw [forEach]
  split
  · simp only [hnext]
  next item hitem =>
    rw [hnext] at hitem
    cases hitem

theorem perform_of_rest (call : Call) : s.perform call = ⟨s, []⟩ := by
  have hmet (account : Account) : s.met? account = none := by
    rw [met?, next_of_rest h]
    rfl
  cases call with
  | next account => rw [perform, next_of_rest h, hmet, Option.toList_none]
  | forEach visit value account =>
      rw [perform, forEach_of_rest h, metAll_of_none (hmet account)]

theorem run_of_rest (calls : List Call) : s.run calls = ⟨s, []⟩ := by
  induction calls with
  | nil => rfl
  | cons call calls ih => simp only [run, perform_of_rest h, ih, List.append_nil]

end End

/-! ### All runs -/

/-- Visiting records is a row of calls: one for every record that is met, and a last one that meets
none. -/
theorem run_next_eq_forEach {β : Type} (visit : β → Account → β) (value : β) (s : Stream)
    (account : Account) :
    ∃ accounts : List Account, accounts.length = (s.metAll account).length + 1 ∧
      s.run (accounts.map .next) =
        ⟨(s.forEach visit value account).stream, s.metAll account⟩ := by
  fun_induction forEach visit value s account with
  | case1 value s account step hitem =>
      have hnone := met?_of_item_eq_none hitem
      refine ⟨[account], ?_, ?_⟩
      · rw [metAll_of_none hnone, List.length_singleton, List.length_nil]
      · rw [metAll_of_none hnone, List.map_singleton, run, perform, hnone]
        rfl
  | case2 value s account step item hitem hlt visited value' rest ih =>
      obtain ⟨met, hmet, rfl⟩ := exists_met? hitem
      obtain ⟨accounts, hlength, hrun⟩ := ih
      refine ⟨account :: accounts, ?_, ?_⟩
      · rw [metAll_of_some hmet, List.length_cons, List.length_cons, hlength]
      · rw [metAll_of_some hmet, List.map_cons, run, perform, hmet]
        show Trace.mk _ ([met] ++ _) = _
        dsimp only
        rw [hrun]
        rfl

/-- What holds of a stream over an input that has met these records. -/
structure Orderly (input : Bytes) (s : Stream) (met : List Met) : Prop where
  position_le : s.position ≤ input.length
  truncated : s.truncated → s.position = input.length
  decoded : s.decoded = met.countP (·.item.isDecoded)
  counted : s.decoded + s.skipped = met.length
  /-- No byte belongs to two records. -/
  ordered : met.Pairwise fun a b => a.span.stop ≤ b.span.offset
  records : ∀ m ∈ met, input[m.span.offset]? = some Byte.openBrace ∧
    m.span.offset < m.span.stop ∧ m.span.stop ≤ s.position

/-- The stream moves on with a call, by a byte at least for each record that the call meets, and the
records lie between where it was and where it is. -/
structure Advances (s : Stream) (call : Call) : Prop where
  position_le : s.position ≤ (s.perform call).stream.position
  length_le : s.position + (s.perform call).met.length ≤ (s.perform call).stream.position
  passed : ∀ m ∈ (s.perform call).met,
    s.position ≤ m.span.offset ∧ m.span.stop ≤ (s.perform call).stream.position

/-- No call does anything any more. -/
structure Ended (s : Stream) : Prop where
  next account : (s.next account).item = none
  run calls : s.run calls = ⟨s, []⟩

theorem ended_of_rest (h : s.cursor.rest = []) : Ended s where
  next account := by rw [next_of_rest h]
  run := run_of_rest h

theorem Journey.orderly {options : Options} {met : List Met} (hs : Within input s)
    (h : Journey input (new options input) met s) : Orderly input s met where
  position_le := Nat.le_of_add_right_le (Nat.le_of_eq hs.position_add)
  truncated htruncated := by
    have hposition := hs.position_add
    rwa [hs.2 htruncated, List.length_nil, Nat.add_zero] at hposition
  decoded := h.decoded.trans (Nat.zero_add _)
  counted := by
    have hdecoded : s.decoded = met.countP (·.item.isDecoded) := h.decoded.trans (Nat.zero_add _)
    have hskipped : s.skipped = met.countP (!·.item.isDecoded) := h.skipped.trans (Nat.zero_add _)
    rw [hdecoded, hskipped, List.length_eq_countP_add_countP (·.item.isDecoded)]
    simp
  ordered := h.ordered
  records m hm := ⟨h.opens m hm, (h.passed m hm).2⟩

theorem Journey.advances {call : Call}
    (h : Journey input s (s.perform call).met (s.perform call).stream) : Advances s call where
  position_le := h.position_le
  length_le := h.length_le
  passed m hm := ⟨(h.passed m hm).1, (h.passed m hm).2.2⟩

/-- **Streams move forward to their end.** Over any bytes, after any row of calls: the place is one of
the input, the counters count the records that were met, and these lie apart and in order. A further
call moves on behind every record that it meets. Where one meets none the stream has ended, so visiting
comes to an end, after one call more than there are records left, and ends the stream. -/
theorem orderly_run (options : Options) (input : Bytes) (calls : List Call) :
    let trace := (new options input).run calls
    let s := trace.stream
    Orderly input s trace.met ∧
      (∀ call, Advances s call) ∧
      (∀ account, (s.perform (.next account)).met.map (·.item) = (s.next account).item.toList) ∧
      (∀ account, (s.next account).item = none → Ended (s.next account).stream) ∧
      ∀ {β : Type} (visit : β → Account → β) (value : β) (account : Account),
        let drained := s.forEach visit value account
        let visits := s.perform (.forEach visit value account)
        (∃ accounts : List Account, accounts.length = visits.met.length + 1 ∧
          s.run (accounts.map .next) = visits) ∧
        drained.count = visits.met.countP (·.item.isDecoded) ∧ Ended drained.stream := by
  intro trace s
  obtain ⟨hjourney, hs⟩ : Journey input (new options input) trace.met s ∧ Within input s :=
    journey_run (within_new options input) calls
  refine ⟨hjourney.orderly hs, fun call => (journey_perform hs call).1.advances, ?_, ?_, ?_⟩
  · intro account
    rw [← map_item_met?, Option.toList_map]
    rfl
  · exact fun account hitem => ended_of_rest (rest_of_next hs hitem)
  · intro β visit value account
    obtain ⟨-, -, hrest, hcount⟩ := forEach_spec visit value account hs
    exact ⟨run_next_eq_forEach visit value s account, hcount, ended_of_rest hrest⟩

end Calls

end Intake.Stream
