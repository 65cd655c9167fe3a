import Intake.Proofs.Request.Percent.Encoded
import Intake.Proofs.Request.Reorder

/-!
# Lists in a query

The value of a list parameter is a text with commas in it. The items of a text are what its commas leave:
the rows of other bytes, as long as they can be, from the first to the last. So when items are written down
with commas around them, and the whole is encoded in whatever way, the items that are read are those that
were written.
-/

namespace Intake.Request

open Bytes (Leads lineEnd)
open Percent (Encodes EncodesByte isDelimiter)

/-! ### Items of a text -/

/-- The parts between the commas of a text, without the empty ones. -/
def items (text : Bytes) : List Bytes := (text.splitOn Byte.comma).filter (· ≠ [])

theorem items_append_comma (front back : Bytes) :
    items (front ++ Byte.comma :: back) = items front ++ items back := by
  have hsplit : (front ++ Byte.comma :: back).splitOn Byte.comma =
      front.splitOn Byte.comma ++ back.splitOn Byte.comma :=
    List.splitOnP_append_cons front back (beq_self_eq_true Byte.comma)
  rw [items, hsplit, List.filter_append]
  rfl

theorem items_of_plain {item : Bytes} (hne : item ≠ []) (hplain : Byte.comma ∉ item) :
    items item = [item] := by
  rw [items, List.splitOn_eq_singleton hplain]
  exact List.filter_cons_of_pos (decide_eq_true hne)

theorem items_replicate_append (n : Nat) (text : Bytes) :
    items (List.replicate n Byte.comma ++ text) = items text := by
  induction n with
  | zero => rfl
  | succ n ih =>
      rw [List.replicate_succ, List.cons_append]
      exact (items_append_comma [] _).trans ih

theorem items_append_replicate (n : Nat) (text : Bytes) :
    items (text ++ List.replicate n Byte.comma) = items text := by
  cases n with
  | zero => rw [List.replicate_zero, List.append_nil]
  | succ n =>
      have hcommas : items (List.replicate n Byte.comma) = [] := by
        rw [← List.append_nil (List.replicate n Byte.comma), items_replicate_append]
        rfl
      rw [List.replicate_succ, items_append_comma, hcommas, List.append_nil]

/-- The items with commas around them: at least one between two of them, and any number in front of the
first and behind the last. -/
inductive Joins : List Bytes → Bytes → Prop
  | last {item : Bytes} (hne : item ≠ []) (hplain : Byte.comma ∉ item) (before after : Nat) :
      Joins [item] (List.replicate before Byte.comma ++ (item ++ List.replicate after Byte.comma))
  | more {item text : Bytes} {rest : List Bytes} (hne : item ≠ []) (hplain : Byte.comma ∉ item)
      (before : Nat) (hrest : Joins rest text) :
      Joins (item :: rest) (List.replicate before Byte.comma ++ (item ++ Byte.comma :: text))

theorem items_of_joins {written : List Bytes} {text : Bytes} (h : Joins written text) :
    items text = written := by
  induction h with
  | last hne hplain before after =>
      rw [items_replicate_append, items_append_replicate, items_of_plain hne hplain]
  | more hne hplain before _ ih =>
      rw [items_replicate_append, items_append_comma, items_of_plain hne hplain, ih,
        List.singleton_append]

theorem Joins.ne_nil {written : List Bytes} {text : Bytes} (h : Joins written text) : text ≠ [] := by
  intro htext
  have hnone : written = [] := by
    rw [← items_of_joins h, htext]
    rfl
  cases h <;> cases hnone

/-! ### Items as rows of bytes -/

/-- The item has no comma in it, and neither side of it could be added to it. -/
structure Isolated (front item back : Bytes) : Prop where
  ne_nil : item ≠ []
  plain : Byte.comma ∉ item
  before : ∀ b ∈ front.getLast?, b = Byte.comma
  after : ∀ b ∈ back.head?, b = Byte.comma

/-- A row of bytes without a comma that is as long as it can be stands behind `start` bytes. -/
def IsRow (text : Bytes) (start : Nat) (item : Bytes) : Prop :=
  ∃ front back, text = front ++ (item ++ back) ∧ front.length = start ∧ Isolated front item back

theorem isRow_of_plain {text item : Bytes} {start : Nat} (h : Byte.comma ∉ text) :
    IsRow text start item ↔ start = 0 ∧ item = text ∧ text ≠ [] := by
  constructor
  · rintro ⟨front, back, rfl, rfl, hrow⟩
    have hfront : front = [] := by
      refine Classical.byContradiction fun hne => h (List.mem_append_left _ ?_)
      have hlast := List.getLast?_eq_some_getLast hne
      exact hrow.before _ hlast ▸ List.getLast_mem hne
    have hback : back = [] := by
      cases back with
      | nil => rfl
      | cons b back =>
          obtain rfl := hrow.after b rfl
          exact absurd (List.mem_append_right _ (List.mem_append_right _ List.mem_cons_self)) h
    subst hfront hback
    simp only [List.length_nil, List.nil_append, List.append_nil, ne_eq, true_and]
    exact hrow.ne_nil
  · rintro ⟨rfl, rfl, hne⟩
    refine ⟨[], [], (List.append_nil _).symm, rfl, hne, h, fun b hb => ?_, fun b hb => ?_⟩
    · cases hb
    · cases hb

/-- No row goes across a comma. -/
theorem isRow_append_comma {front back item : Bytes} {start : Nat} :
    IsRow (front ++ Byte.comma :: back) start item ↔
      IsRow front start item ∨ ∃ n, start = front.length + 1 + n ∧ IsRow back n item := by
  have hlast (left : Bytes) : (front ++ Byte.comma :: left).getLast? =
      some (left.getLast?.getD Byte.comma) := by
    rw [List.getLast?_append, List.getLast?_cons, Option.some_or]
  constructor
  · rintro ⟨left, right, htext, rfl, hrow⟩
    rcases List.append_eq_append_iff.1 htext with ⟨more, rfl, hback⟩ | ⟨more, rfl, hright⟩
    · -- the row begins behind the comma, for it cannot begin with it
      cases more with
      | nil =>
          obtain ⟨b, item, rfl⟩ := List.exists_cons_of_ne_nil hrow.ne_nil
          cases hback
          exact absurd List.mem_cons_self hrow.plain
      | cons b more =>
          cases hback
          refine .inr ⟨more.length, ?_, more, right, rfl, rfl,
            hrow.ne_nil, hrow.plain, fun b hb => ?_, hrow.after⟩
          · rw [List.length_append, List.length_cons, Nat.add_assoc, Nat.add_comm 1]
          · apply hrow.before
            rw [hlast, Option.mem_def.1 hb]
            rfl
    · rcases List.append_eq_append_iff.1 hright with ⟨half, rfl, rfl⟩ | ⟨half, rfl, hhalf⟩
      · -- it ends in front of the comma
        refine .inl ⟨left, half, rfl, rfl,
          hrow.ne_nil, hrow.plain, hrow.before, fun b hb => hrow.after b ?_⟩
        rw [List.head?_append, Option.mem_def.1 hb]
        rfl
      · cases half with
        | nil =>
            refine .inl ⟨left, [], by rw [List.append_nil, List.append_nil], rfl,
              hrow.ne_nil, hrow.plain, hrow.before, fun b hb => ?_⟩
            cases hb
        | cons b half =>
            cases hhalf
            exact absurd (List.mem_append_right _ List.mem_cons_self) hrow.plain
  · rintro (⟨left, right, rfl, rfl, hrow⟩ | ⟨_, rfl, left, right, rfl, rfl, hrow⟩)
    · refine ⟨left, right ++ Byte.comma :: back, by simp only [List.append_assoc], rfl,
        hrow.ne_nil, hrow.plain, hrow.before, fun b hb => ?_⟩
      cases right with
      | nil =>
          cases hb
          rfl
      | cons a right => exact hrow.after b hb
    · refine ⟨front ++ Byte.comma :: left, right, by simp only [List.append_assoc, List.cons_append], ?_,
        hrow.ne_nil, hrow.plain, fun b hb => ?_, hrow.after⟩
      · rw [List.length_append, List.length_cons, Nat.add_assoc, Nat.add_comm 1]
      · rw [hlast, Option.mem_some_iff] at hb
        cases hend : left.getLast? with
        | none => rw [← hb, hend, Option.getD_none]
        | some a => rw [← hb, hend, Option.getD_some, hrow.before a hend]

/-- The parts that are not empty, each with the place where it begins, when `start` bytes stand in front and
one between two of them. -/
def places (start : Nat) : List Bytes → List (Nat × Bytes)
  | [] => []
  | part :: parts =>
    (if part = [] then [] else [(start, part)]) ++ places (start + part.length + 1) parts

theorem map_snd_places (start : Nat) (parts : List Bytes) :
    (places start parts).map Prod.snd = parts.filter (· ≠ []) := by
  induction parts generalizing start with
  | nil => rfl
  | cons part parts ih =>
      rw [places, List.map_append, ih]
      by_cases hne : part = []
      · simp [hne]
      · simp [hne]

theorem le_of_mem_places {start : Nat} {parts : List Bytes} {place : Nat × Bytes}
    (h : place ∈ places start parts) : start ≤ place.1 := by
  induction parts generalizing start with
  | nil => exact absurd h List.not_mem_nil
  | cons part parts ih =>
      rcases List.mem_append.1 h with h | h
      · split at h
        · exact absurd h List.not_mem_nil
        · exact Nat.le_of_eq (congrArg Prod.fst (List.mem_singleton.1 h)).symm
      · have hle := ih h
        omega

theorem pairwise_places (start : Nat) (parts : List Bytes) :
    (places start parts).Pairwise (·.1 < ·.1) := by
  induction parts generalizing start with
  | nil => exact .nil
  | cons part parts ih =>
      rw [places]
      split
      · exact ih _
      · refine List.pairwise_cons.2 ⟨fun place h => ?_, ih _⟩
        have hle := le_of_mem_places h
        dsimp only
        omega

theorem mem_places_cons_iff {start n : Nat} {part item : Bytes} {parts : List Bytes} :
    (start + n, item) ∈ places start (part :: parts) ↔ (n = 0 ∧ item = part ∧ part ≠ []) ∨
      ∃ m, n = part.length + 1 + m ∧
        (start + part.length + 1 + m, item) ∈ places (start + part.length + 1) parts := by
  rw [places, List.mem_append]
  refine or_congr ?_ ⟨fun h => ?_, ?_⟩
  · split
    next hnil => simp [hnil]
    next hne => simp [hne]
  · have hle : start + part.length + 1 ≤ start + n := le_of_mem_places h
    refine ⟨n - (part.length + 1), by omega, ?_⟩
    have hsame : start + part.length + 1 + (n - (part.length + 1)) = start + n := by omega
    exact hsame ▸ h
  · rintro ⟨m, rfl, h⟩
    simpa only [Nat.add_assoc] using h

/-- The parts between commas that are not empty are the rows of the text. -/
theorem mem_places_iff {start n : Nat} {parts : List Bytes} {item : Bytes}
    (hplain : ∀ part ∈ parts, Byte.comma ∉ part) (hne : parts ≠ []) :
    (start + n, item) ∈ places start parts ↔ IsRow ([Byte.comma].intercalate parts) n item := by
  induction parts generalizing start n with
  | nil => exact absurd rfl hne
  | cons part parts ih =>
      obtain ⟨hpart, hparts⟩ := List.forall_mem_cons.1 hplain
      rw [mem_places_cons_iff, ← isRow_of_plain hpart]
      cases parts with
      | nil =>
          rw [List.intercalate_singleton]
          exact ⟨fun h => h.resolve_right fun ⟨_, _, hin⟩ => absurd hin List.not_mem_nil, .inl⟩
      | cons next parts =>
          rw [List.intercalate_cons_cons, List.append_assoc, List.singleton_append, isRow_append_comma]
          simp only [ih hparts (List.cons_ne_nil next parts)]

theorem exists_places (text : Bytes) : ∃ places : List (Nat × Bytes),
    places.map Prod.snd = items text ∧ places.Pairwise (·.1 < ·.1) ∧
      ∀ start item, (start, item) ∈ places ↔ IsRow text start item := by
  obtain ⟨hne, hplain, hjoin⟩ := Bytes.splitOn_eq_iff.1 (rfl : text.splitOn Byte.comma = _)
  refine ⟨places 0 (text.splitOn Byte.comma), map_snd_places 0 _, pairwise_places 0 _,
    fun start item => ?_⟩
  have hrows : (0 + start, item) ∈ places 0 (text.splitOn Byte.comma) ↔
      IsRow ([Byte.comma].intercalate (text.splitOn Byte.comma)) start item := mem_places_iff hplain hne
  rw [hjoin, Nat.zero_add] at hrows
  exact hrows

/-! ### The pair of a list -/

/-- The parameters of a filter whose text is a list. -/
inductive ListParameter where
  | fnameAny
  | cityAny
  | interestsContains
  | interestsAny
  | likesContains

namespace ListParameter

def word : ListParameter → Bytes
  | fnameAny => Utf8.ofString "fname_any"
  | cityAny => Utf8.ofString "city_any"
  | interestsContains => Utf8.ofString "interests_contains"
  | interestsAny => Utf8.ofString "interests_any"
  | likesContains => Utf8.ofString "likes_contains"

def field : ListParameter → FilterField
  | fnameAny => .fnameAny
  | cityAny => .cityAny
  | interestsContains => .interestsContains
  | interestsAny => .interestsAny
  | likesContains => .likesContains

/-- The text that the parameter was given. -/
def span (v : Values filterTable) : ListParameter → Span
  | fnameAny => v.value .fnameAny
  | cityAny => v.value .cityAny
  | interestsContains => v.value .interestsContains
  | interestsAny => v.value .interestsAny
  | likesContains => v.value .likesContains

/-- The segment that gives the parameter a value. -/
def segment (p : ListParameter) (raw : Bytes) : Bytes := p.word ++ Byte.equals :: raw

variable (p : ListParameter) {text raw : Bytes}

theorem word_plain : Byte.equals ∉ p.word ∧ p.word ≠ queryIdKey ∧ IsSegment p.word := by
  cases p <;> decide +kernel

/-- The word stands for a text, and it alone sets its field. -/
theorem word_known : (∀ q ∈ filterParameters, q.key = p.word → q.kind = .text) ∧
    (∀ q ∈ filterParameters, q.field = p.field → q.key = p.word) ∧
    ∃ q ∈ filterParameters, q.field = p.field ∧ q.key = p.word := by
  cases p <;> decide +kernel

theorem sets_iff {key : Bytes} : Sets filterParameters p.field key ↔ key = p.word := by
  obtain ⟨-, honly, hsets⟩ := p.word_known
  constructor
  · rintro ⟨q, hq, hfield, rfl⟩
    exact honly q hq hfield
  · rintro rfl
    exact hsets

theorem pair_segment (raw : Bytes) : pair (p.segment raw) = (p.word, raw) :=
  (pairText_iff.1 (.both p.word_plain.1)).symm

theorem segmentPairs_segment (raw : Bytes) (front back : List Bytes) :
    segmentPairs (front ++ p.segment raw :: back) =
      segmentPairs front ++ (p.word, raw) :: segmentPairs back := by
  have hne : p.segment raw ≠ [] := List.append_ne_nil_of_right_ne_nil _ (List.cons_ne_nil _ _)
  rw [segmentPairs_append, segmentPairs_cons hne, p.pair_segment]

/-- An encoded text has no delimiter in it, so that its segment is one if it is in one line. -/
theorem isSegment_segment (h : Encodes text raw) (hline : ¬ lineEnd <:+: raw) :
    IsSegment (p.segment raw) := by
  obtain ⟨-, -, hspace, hampersand, hword⟩ := p.word_plain
  have hplain {b : UInt8} (hb : isDelimiter b) (hne : b ≠ Byte.equals) (hin : b ∉ p.word) :
      b ∉ p.segment raw := by
    intro hmem
    rcases List.mem_append.1 hmem with hmem | hmem
    · exact hin hmem
    rcases List.mem_cons.1 hmem with hmem | hmem
    · exact hne hmem
    · rw [h.isDelimiter_eq_false hmem] at hb
      cases hb
  refine ⟨hplain (by decide) (by decide) hspace, hplain (by decide) (by decide) hampersand,
    fun hin => ?_⟩
  rcases Bytes.infix_of_append_cons (by decide) hin with hin | hin
  · exact hword hin
  · exact hline hin

theorem pairFits_segment (h : Encodes text raw) (hne : text ≠ []) :
    PairFits filterParameters (p.word, raw) := by
  refine ⟨fun hkey => absurd hkey p.word_plain.2.1, fun q hq hkey => ?_⟩
  rw [p.word_known.1 q hq hkey]
  exact ⟨text, hne, h.denotes⟩

/-- The field holds the text of the last pair that gives the parameter. -/
theorem get?_span {before after : List (Bytes × Bytes)} {v : Values filterTable} {arena : Arena}
    (hfilled : Filled filterTable filterParameters (before ++ (p.word, raw) :: after) v arena)
    (hafter : ∀ pair ∈ after, pair.1 ≠ p.word) (h : Encodes text raw) :
    arena.get? (p.span v) = some text := by
  have hvalue := (hfilled.value p.field).given_of_last (p.sets_iff.2 rfl) fun pair hpair hsets =>
    hafter pair hpair (p.sets_iff.1 hsets)
  obtain ⟨content, hmeans, hholds⟩ := hvalue
  cases p with
  | fnameAny | cityAny | interestsContains | interestsAny | likesContains =>
      rw [h.denotes.unique hmeans.2]
      exact hholds

end ListParameter

/-! ### Requests with a list -/

namespace Frame

variable (f : Frame) {segments : List Bytes} {headers : Bytes} {d : Decoder} {r : Request} {n : Nat}
  {e : Endpoint} {entityId : Option Nat} {pairs : List (Bytes × Bytes)}

theorem readHead_line (hsegments : ∀ segment ∈ segments, IsSegment segment)
    (hsearched : d.Searched (f.input segments))
    (hhead : Leads (f.line segments ++ headers) terminator (f.input segments))
    (hlengths : LengthsFit (f.line segments ++ headers)) :
    ∃ m outcome, LineEnds { r.reset with contentLength := m } (f.line segments) outcome ∧
      (d.decode r (f.input segments)).request = outcome.request ∧
      (d.decode r (f.input segments)).result =
        outcome.verdict.result ((f.line segments ++ headers).length + terminator.length) := by
  have hline := Bytes.leads_lineEnd (f.not_infix_line hsegments) f.rest
  have hsame := (leads_line hhead.occurs).unique hline
  obtain ⟨m, outcome, hends, hrequest, hresult⟩ := readHead_of_lengthsFit r hlengths
  rw [hsame] at hends
  rw [Decoder.decode_of_leads hsearched hhead]
  exact ⟨m, outcome, hends, hrequest, hresult⟩

/-- What was accepted asks for its endpoint with pairs that fit. -/
theorem asks_of_complete (hsegments : ∀ segment ∈ segments, IsSegment segment)
    (hsearched : d.Searched (f.input segments))
    (hcomplete : (d.decode r (f.input segments)).result = .ok (.complete n))
    (hendpoint : (d.decode r (f.input segments)).request.endpoint = some e) :
    ∃ headers entityId, Leads (f.line segments ++ headers) terminator (f.input segments) ∧
      LengthsFit (f.line segments ++ headers) ∧
      Asks e entityId (segmentPairs segments) (f.line segments) ∧
      ∀ pair ∈ segmentPairs segments, PairFits e.parameters pair := by
  obtain ⟨_, hoccurs, -⟩ := exists_head hcomplete
  obtain ⟨head, hhead⟩ := Bytes.exists_leads (Bytes.occurs_iff.2 ⟨_, hoccurs⟩)
  obtain ⟨headers, rfl⟩ := exists_headers (f.not_infix_line hsegments) hhead
  have hlengths : LengthsFit (f.line segments ++ headers) := by
    rw [Decoder.decode_of_leads hsearched hhead] at hcomplete
    exact lengthsFit_of_complete hcomplete
  obtain ⟨m, outcome, hends, hrequest, hresult⟩ := f.readHead_line hsegments hsearched hhead hlengths
  rw [hrequest] at hendpoint
  cases hends with
  | accepted hasks hfits =>
      cases hendpoint
      obtain ⟨-, hgives⟩ := (f.asks_line_iff hsegments).1 hasks
      obtain rfl := gives_iff.1 hgives
      exact ⟨headers, _, hhead, hlengths, hasks, hfits⟩
  | rejected => cases hendpoint
  | overflow =>
      rw [hresult] at hcomplete
      cases hcomplete

/-- What asks for an endpoint with pairs that fit is accepted unless there is no room for it. -/
theorem filled_of_asks (hsegments : ∀ segment ∈ segments, IsSegment segment)
    (hsearched : d.Searched (f.input segments))
    (hhead : Leads (f.line segments ++ headers) terminator (f.input segments))
    (hlengths : LengthsFit (f.line segments ++ headers))
    (hasks : Asks e entityId pairs (f.line segments))
    (hfits : ∀ pair ∈ pairs, PairFits e.parameters pair) :
    let answer := d.decode r (f.input segments)
    ((f.line segments).length ≤ r.arena.capacity →
        ∀ o, answer.result ≠ .error (.capacityExceeded o)) ∧
      ((∀ o, answer.result ≠ .error (.capacityExceeded o)) →
        answer.result = .ok (.complete ((f.line segments ++ headers).length + terminator.length)) ∧
        answer.request.endpoint = some e ∧ ∃ v : Values e.table, answer.request.params = e.params v ∧
          Filled e.table e.parameters pairs v answer.request.arena) := by
  intro answer
  obtain ⟨m, outcome, hends, hrequest, hresult⟩ :=
    f.readHead_line (r := r) hsegments hsearched hhead hlengths
  have hanswer : answer.result = outcome.verdict.result _ := hresult
  rw [hanswer, show answer.request = outcome.request from hrequest]
  cases hends with
  | accepted hasks' _ hfilled =>
      obtain ⟨rfl, -, rfl⟩ := hasks.unique hasks'
      exact ⟨fun _ o h => (by cases h), fun _ => ⟨rfl, rfl, _, rfl, hfilled⟩⟩
  | rejected h => exact absurd hfits (h _ _ _ hasks)
  | overflow hfull =>
      exact ⟨fun hroom => absurd hroom (Nat.not_le_of_lt hfull), fun h => absurd rfl (h _)⟩

end Frame

/-- **Lists come back item by item.** A request for a filter that is accepted is so with the value of a list
parameter in its query too, if there is room. When items that are not empty and have no comma in them
are written with commas around them and encoded, each byte in any way, then these are the items that the
parameter has, if no later pair gives it another value. The items of any text are its rows without a comma,
from the first to the last. -/
theorem splitList_written (f : Frame) (p : ListParameter) {front back written : List Bytes}
    {text raw : Bytes} {d d' : Decoder} {r base : Request} {n : Nat} (hwritten : Joins written text)
    (hraw : Encodes text raw) (hline : ¬ lineEnd <:+: raw)
    (hsegments : ∀ segment ∈ front ++ back, IsSegment segment)
    (hlast : ∀ pair ∈ segmentPairs back, pair.1 ≠ p.word)
    (hsearched : d.Searched (f.input (front ++ back)))
    (hsearched' : d'.Searched (f.input (front ++ p.segment raw :: back)))
    (hcomplete : (d.decode base (f.input (front ++ back))).result = .ok (.complete n))
    (hendpoint : (d.decode base (f.input (front ++ back))).request.endpoint = some .filter) :
    let answer := d'.decode r (f.input (front ++ p.segment raw :: back))
    ((f.line (front ++ p.segment raw :: back)).length ≤ r.arena.capacity →
        ∀ o, answer.result ≠ .error (.capacityExceeded o)) ∧
      ((∀ o, answer.result ≠ .error (.capacityExceeded o)) →
        (∃ consumed, answer.result = .ok (.complete consumed)) ∧
        answer.request.endpoint = some .filter ∧
        ∃ v, answer.request.params = .filter v ∧ answer.request.splitList (p.span v) = written) ∧
      ∀ (other : Request) (span : Span),
        (∀ item ∈ other.splitList span, item ≠ [] ∧ Byte.comma ∉ item) ∧
        ∃ places : List (Nat × Bytes), places.map Prod.snd = other.splitList span ∧
          places.Pairwise (·.1 < ·.1) ∧
          ∀ start item, (start, item) ∈ places ↔ IsRow (other.arena.view span) start item := by
  intro answer
  have hsegment := p.isSegment_segment hraw hline
  have hsegments' : ∀ segment ∈ front ++ p.segment raw :: back, IsSegment segment := by
    obtain ⟨hfront, hback⟩ := List.forall_mem_append.1 hsegments
    exact List.forall_mem_append.2 ⟨hfront, List.forall_mem_cons.2 ⟨hsegment, hback⟩⟩
  -- the line asks for the same with one pair more, which fits like the others
  obtain ⟨headers, entityId, hhead, hlengths, hasks, hfits⟩ :=
    f.asks_of_complete hsegments hsearched hcomplete hendpoint
  obtain ⟨_, hsame, hhead', hcongr⟩ := f.exists_head_congr hsegments hsegments' hhead
  obtain rfl := List.append_cancel_left hsame
  have hasks' : Asks .filter entityId (segmentPairs front ++ (p.word, raw) :: segmentPairs back)
      (f.line (front ++ p.segment raw :: back)) := by
    rw [← p.segmentPairs_segment]
    exact (f.asks_line_iff hsegments').2 ⟨((f.asks_line_iff hsegments).1 hasks).1, gives_iff.2 rfl⟩
  have hfits' : ∀ pair ∈ segmentPairs front ++ (p.word, raw) :: segmentPairs back,
      PairFits filterParameters pair := by
    have hpair := p.pairFits_segment hraw hwritten.ne_nil
    rw [segmentPairs_append] at hfits
    obtain ⟨hfront, hback⟩ := List.forall_mem_append.1 hfits
    exact List.forall_mem_append.2 ⟨hfront, List.forall_mem_cons.2 ⟨hpair, hback⟩⟩
  obtain ⟨hroom, haccepted⟩ :=
    f.filled_of_asks (r := r) hsegments' hsearched' hhead' (hcongr hlengths) hasks' hfits'
  refine ⟨hroom, fun hfull => ?_, fun other span => ⟨fun item hitem => ?_, exists_places _⟩⟩
  · obtain ⟨hresult, hfilter, v, hparams, hfilled⟩ := haccepted hfull
    refine ⟨⟨_, hresult⟩, hfilter, v, hparams, ?_⟩
    have hview : answer.request.arena.view (p.span v) = text := by
      rw [Arena.view, p.get?_span hfilled hlast hraw, Option.getD_some]
    have hitems : answer.request.splitList (p.span v) = items text := congrArg items hview
    exact hitems.trans (items_of_joins hwritten)
  · obtain ⟨hpart, hne⟩ := List.mem_filter.1 hitem
    exact ⟨of_decide_eq_true hne, Bytes.not_mem_of_mem_splitOn hpart⟩

/-- Two names with more commas than are needed, between two other pairs. -/
theorem splitList_written_names :
    let front := [Utf8.ofString "limit=1"]
    let back := [Utf8.ofString "sex_eq=f"]
    let raw := Utf8.ofString "%2cA,%2C%42"
    let answer := Decoder.decode {} (.new {})
      (filterFrame.input (front ++ ListParameter.fnameAny.segment raw :: back))
    answer.request.endpoint = some .filter ∧ ∃ v, answer.request.params = .filter v ∧
      answer.request.splitList (v.value .fnameAny) = [[0x41], [0x42]] := by
  intro front back raw
  have hwritten : Joins [[0x41], [0x42]] [Byte.comma, 0x41, Byte.comma, Byte.comma, 0x42] :=
    .more (List.cons_ne_nil _ _) (by decide) 1 (.last (List.cons_ne_nil _ _) (by decide) 1 0)
  have hbytes : raw = [Byte.percent, 0x32, 0x63] ++ ([0x41] ++ ([Byte.comma] ++
      ([Byte.percent, 0x32, 0x43] ++ ([Byte.percent, 0x34, 0x32] ++ [])))) := by decide
  have hraw : Encodes [Byte.comma, 0x41, Byte.comma, Byte.comma, 0x42] raw := by
    rw [hbytes]
    refine .cons (.escape rfl rfl) ?_
    refine .cons (.literal rfl (by decide) (by decide)) ?_
    refine .cons (.literal rfl (by decide) (by decide)) ?_
    exact .cons (.escape rfl rfl) <| .cons (.escape rfl rfl) .nil
  have hsegments : ∀ segment ∈ front ++ back, IsSegment segment := by decide +kernel
  have hlast : ∀ pair ∈ segmentPairs back, pair.1 ≠ ListParameter.fnameAny.word := by decide +kernel
  have hcomplete : (Decoder.decode {} (.new {}) (filterFrame.input (front ++ back))).result =
      .ok (.complete 51) := by decide +kernel
  have hendpoint : (Decoder.decode {} (.new {}) (filterFrame.input (front ++ back))).request.endpoint =
      some .filter := by decide +kernel
  have hline : ¬ lineEnd <:+: raw := by decide +kernel
  have hlength : (filterFrame.line (front ++ ListParameter.fnameAny.segment raw :: back)).length ≤
      (Request.new {}).arena.capacity := by decide +kernel
  obtain ⟨hroom, haccepted, -⟩ := splitList_written (r := .new {}) filterFrame .fnameAny hwritten hraw
    hline hsegments hlast (Decoder.searched_start _) (Decoder.searched_start _) hcomplete hendpoint
  obtain ⟨-, hfilter, v, hparams, hitems⟩ := haccepted (hroom hlength)
  exact ⟨hfilter, v, hparams, hitems⟩

end Intake.Request
