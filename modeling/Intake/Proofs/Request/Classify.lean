import Intake.Proofs.Request.Head

/-!
# What a request asks for, and what it holds

A request asks for an endpoint just when its first line is one of the grammar for that endpoint and all
pairs of its query fit. Nothing else about the input matters, as long as the content lengths fit and
the arena could hold the input.

What it then holds is what its query gives and nothing else: the bits of the words that occur, in each
field the value of the last pair that sets it, and in the arena the texts. This is so however often
pairs are repeated, with other pairs between them, and whether or not the decoder has searched the input
before.
-/

namespace Intake.Request.Decoder

open Bytes (Leads lineEnd)

variable {d : Decoder} {r : Request} {input head line : Bytes} {n : Nat} {e : Endpoint}

/-- A head whose content lengths fit is complete, and its first line says what becomes of the request,
if the arena could hold that line. -/
theorem decode_of_lengthsFit (hsearched : d.Searched input) (hhead : Leads head terminator input)
    (hline : Leads line lineEnd input) (hlengths : LengthsFit head)
    (hcapacity : line.length ≤ r.arena.capacity) :
    ∃ n outcome, LineEnds { r.reset with contentLength := n } line outcome ∧
      (∀ o, outcome.verdict ≠ .overflow o) ∧ (d.decode r input).request = outcome.request ∧
      (d.decode r input).result = .ok (.complete (head.length + terminator.length)) := by
  have hsame : (headParts head).1 = line := (leads_line hhead.occurs).unique hline
  obtain ⟨n, outcome, hends, hrequest, hresult⟩ := readHead_of_lengthsFit r hlengths
  rw [hsame] at hends
  rw [decode_of_leads hsearched hhead, hrequest, hresult]
  cases hends with
  | accepted hasks hfits hfilled hnumber =>
      exact ⟨n, _, .accepted hasks hfits hfilled hnumber, fun o h => (by cases h), rfl, rfl⟩
  | rejected h => exact ⟨n, _, .rejected h, fun o h => (by cases h), rfl, rfl⟩
  | overflow h => exact absurd hcapacity (Nat.not_le_of_lt h)

section Filled

variable (hsearched : d.Searched input) (hhead : Leads head terminator input)
  (hline : Leads line lineEnd input) (hlengths : LengthsFit head)
  (hcapacity : line.length ≤ r.arena.capacity) {entityId : Option Nat}
  {pairs : List (Bytes × Bytes)}
include hsearched hhead hline hlengths hcapacity

/-- A request that asks for an endpoint was asked to by its first line. -/
theorem asks_of_endpoint (h : (d.decode r input).request.endpoint = some e) :
    ∃ entityId pairs, ∃ v : Values e.table, Asks e entityId pairs line ∧
      (∀ pair ∈ pairs, PairFits e.parameters pair) ∧ (d.decode r input).request.params = e.params v ∧
      Filled e.table e.parameters pairs v (d.decode r input).request.arena := by
  obtain ⟨n, outcome, hends, hroom, hrequest, -⟩ :=
    decode_of_lengthsFit hsearched hhead hline hlengths hcapacity
  rw [hrequest] at h ⊢
  cases hends with
  | accepted hasks hfits hfilled =>
      cases h
      exact ⟨_, _, _, hasks, hfits, rfl, hfilled⟩
  | rejected => cases h
  | overflow => exact absurd rfl (hroom _)

theorem filled_of_asks (hasks : Asks e entityId pairs line)
    (hfits : ∀ pair ∈ pairs, PairFits e.parameters pair) :
    (d.decode r input).request.endpoint = some e ∧
      ∃ v : Values e.table, (d.decode r input).request.params = e.params v ∧
        Filled e.table e.parameters pairs v (d.decode r input).request.arena := by
  obtain ⟨n, outcome, hends, hroom, hrequest, -⟩ :=
    decode_of_lengthsFit hsearched hhead hline hlengths hcapacity
  rw [hrequest]
  cases hends with
  | accepted hasks' _ hfilled =>
      obtain ⟨rfl, -, rfl⟩ := hasks.unique hasks'
      exact ⟨rfl, _, rfl, hfilled⟩
  | rejected h => exact absurd hfits (h _ _ _ hasks)
  | overflow => exact absurd rfl (hroom _)

end Filled

/-- **Classification is the grammar.** A head whose content lengths fit is complete. It asks for an
endpoint if its first line does and the pairs of the query fit; then the account is the one in the path
and the number is the one that was given last. Otherwise the request is turned away. -/
theorem decode_classifies (hsearched : d.Searched input) (hhead : Leads head terminator input)
    (hline : Leads line lineEnd input) (hlengths : LengthsFit head)
    (hcapacity : input.length ≤ r.arena.capacity) :
    let answer := d.decode r input
    answer.result = .ok (.complete (head.length + 4)) ∧
      (∀ e, answer.request.endpoint = some e ↔ ∃ entityId pairs, Asks e entityId pairs line ∧
        ∀ pair ∈ pairs, PairFits e.parameters pair) ∧
      (∀ e entityId pairs, answer.request.endpoint = some e → Asks e entityId pairs line →
        answer.request.entityId = entityId ∧ NumberedBy pairs answer.request.queryId) ∧
      (answer.request.endpoint = none → answer.request.params = .none) := by
  intro answer
  have hle : line.length ≤ r.arena.capacity :=
    Nat.le_trans ((List.prefix_append line lineEnd).trans hline.occurs).length_le hcapacity
  obtain ⟨n, outcome, hends, hroom, hrequest, hresult⟩ :=
    decode_of_lengthsFit hsearched hhead hline hlengths hle
  have hanswer : answer.request = outcome.request := hrequest
  refine ⟨hresult, ?_⟩
  rw [hanswer]
  cases hends with
  | @accepted e entityId pairs v arena queryId unknown hasks hfits _ hnumber =>
      refine ⟨fun other => ⟨fun h => ?_, fun ⟨entityId', pairs', hother, _⟩ => ?_⟩,
        fun other entityId' pairs' _ hother => ?_, fun h => (by cases h)⟩
      · cases h
        exact ⟨entityId, pairs, hasks, hfits⟩
      · exact congrArg some (hasks.unique hother).1
      · obtain ⟨-, rfl, rfl⟩ := hasks.unique hother
        exact ⟨rfl, hnumber⟩
  | rejected h =>
      refine ⟨fun e => ⟨fun hsome => (by cases hsome), fun ⟨entityId, pairs, hasks, hfits⟩ => ?_⟩,
        fun e entityId pairs hsome => (by cases hsome), fun _ => rfl⟩
      exact absurd hfits (h e entityId pairs hasks)
  | overflow => exact absurd rfl (hroom _)

/-- A path with leading zeros and a slash at its end, and a query whose number is given twice. -/
theorem decode_classifies_update :
    let line := Utf8.ofString "POST /accounts/007/?query_id=1&&query_id=12 HTTP/1.1"
    let head := line ++ lineEnd ++ Utf8.ofString "Content-Length: 05"
    let answer := decode {} (.new {}) (head ++ terminator)
    answer.result = .ok (.complete (head.length + 4)) ∧
      answer.request.endpoint = some .update ∧ answer.request.entityId = some 7 := by
  intro line head answer
  have hcut : (head ++ terminator).cut terminator = some (head, []) := by decide +kernel
  have hhead := Bytes.leads_of_cut hcut
  have hline : Leads line lineEnd (head ++ terminator) := by
    have hfirst : (headParts head).1 = line := by decide +kernel
    exact hfirst ▸ leads_line hhead.occurs
  have hlengths : LengthsFit head := (lengthsFit_iff 0 0).2 (by decide +kernel)
  have hcapacity : (head ++ terminator).length ≤ (Request.new {}).arena.capacity := by decide +kernel
  obtain ⟨hresult, hendpoint, hparts, -⟩ :=
    decode_classifies (r := .new {}) (searched_start _) hhead hline hlengths hcapacity
  let pairs : List (Bytes × Bytes) := [(queryIdKey, [0x31]), (queryIdKey, [0x31, 0x32])]
  have haccount : AccountText 7 (Utf8.ofString "007") :=
    ⟨⟨by decide, List.all_eq_true.1 (by decide), by decide⟩, by decide⟩
  have hpath : PathText .update (some 7) (Utf8.ofString "/accounts/007/") :=
    ⟨_, _, .update haccount, .inr rfl, by decide⟩
  have hquery : QueryText pairs (Utf8.ofString "query_id=1&&query_id=12") :=
    queryText_iff.2 (by decide +kernel)
  have htarget : TargetText (Utf8.ofString "/accounts/007/") pairs
      (Utf8.ofString "/accounts/007/?query_id=1&&query_id=12") := .query (by decide) hquery
  have hasks : Asks .update (some 7) pairs line := .mk hpath htarget (by decide)
  have hfits : ∀ pair ∈ pairs, PairFits (Endpoint.parameters .update) pair := by
    intro pair hpair
    refine ⟨fun _ => ?_, fun p hp => absurd hp List.not_mem_nil⟩
    have hread : ∀ pair ∈ pairs, (Decimal.unsigned? pair.2).isSome := by decide
    obtain ⟨n, hn⟩ := Option.isSome_iff_exists.1 (hread pair hpair)
    exact ⟨n, Decimal.unsigned?_eq_some_iff.1 hn⟩
  have hupdate := (hendpoint .update).2 ⟨_, _, hasks, hfits⟩
  exact ⟨hresult, hupdate, (hparts _ _ _ hupdate hasks).1⟩

/-! ### Parameters -/

/-- **Parameters are those of the query.** A request that asks for an endpoint was read from a first
line that asks for it, and is filled by the pairs of that line. -/
theorem filled_of_complete (hcomplete : (d.decode r input).result = .ok (.complete n))
    (hendpoint : (d.decode r input).request.endpoint = some e) :
    ∃ line entityId pairs, ∃ v : Values e.table, Leads line lineEnd input ∧
      Asks e entityId pairs line ∧ (d.decode r input).request.params = e.params v ∧
      Filled e.table e.parameters pairs v (d.decode r input).request.arena := by
  obtain ⟨head, hhead, hanswer⟩ := exists_head hcomplete
  rw [hanswer] at hcomplete hendpoint ⊢
  obtain ⟨m, outcome, hends, hrequest, hresult⟩ :=
    readHead_of_lengthsFit r (lengthsFit_of_complete hcomplete)
  rw [hrequest] at hendpoint ⊢
  rw [hresult] at hcomplete
  cases hends with
  | accepted hasks _ hfilled _ =>
      cases hendpoint
      exact ⟨_, _, _, _, leads_line hhead, hasks, rfl, hfilled⟩
  | rejected => cases hendpoint
  | overflow => cases hcomplete

/-- A name given twice, with a code and an unknown word between them. -/
theorem filled_of_complete_twice :
    let input := Utf8.ofString "GET /accounts/filter/?fname_eq=A%42&phone_code=007&x&fname_eq=C+D" ++
      Utf8.ofString " HTTP/1.1" ++ terminator
    (decode {} (.new {}) input).result = .ok (.complete input.length) ∧
      (decode {} (.new {}) input).request.endpoint = some .filter ∧
      ∃ line entityId pairs, ∃ v : Values filterTable, Leads line lineEnd input ∧
        Asks .filter entityId pairs line ∧ (decode {} (.new {}) input).request.params = .filter v ∧
        Filled filterTable filterParameters pairs v (decode {} (.new {}) input).request.arena := by
  intro input
  have hcomplete : (decode {} (.new {}) input).result = .ok (.complete input.length) := by
    decide +kernel
  have hendpoint : (decode {} (.new {}) input).request.endpoint = some .filter := by decide +kernel
  exact ⟨hcomplete, hendpoint, filled_of_complete hcomplete hendpoint⟩

end Intake.Request.Decoder
