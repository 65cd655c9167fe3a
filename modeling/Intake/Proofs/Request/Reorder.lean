import Intake.Proofs.Request.Classify

/-!
# Queries in another order

The parameters of a query whose known words are all different do not depend on the order in which they
are given: the request is accepted as before, the bits are the same, and each field holds what its own
word was given. The one exception are the two words for a status, which set the same field. When both
are given the field holds the status that was given last, under whichever word.
-/

namespace Intake.Request

open Bytes (Leads LaterLine lineEnd lines infix_append_cons_left infix_append_cons_right)

/-! ### The head around its first line -/

section Head

variable {line other head headers rest : Bytes}

/-- The end of a head does not begin in its first line. -/
theorem leads_terminator_iff (hline : ¬ lineEnd <:+: line) :
    Leads (line ++ headers) terminator (line ++ (lineEnd ++ rest)) ↔
      Leads headers terminator (lineEnd ++ rest) := by
  constructor
  · intro h
    have hdrop := h.drop (n := line.length) (by rw [List.length_append]; exact Nat.le_add_right _ _)
    rw [List.drop_left, List.drop_left] at hdrop
    exact hdrop
  · intro h
    refine ⟨?_, fun {earlier} hearlier => ?_⟩
    · rw [List.append_assoc]
      exact (List.prefix_append_right_inj line).2 h.occurs
    · have hend : earlier ++ lineEnd <+: line ++ (lineEnd ++ rest) :=
        ((List.prefix_append_right_inj earlier).2 ⟨lineEnd, rfl⟩).trans hearlier
      have hle := (Bytes.leads_lineEnd hline rest).first hend
      have hfront : line <+: earlier :=
        List.prefix_of_prefix_length_le (List.prefix_append _ _)
          ((List.prefix_append _ _).trans hearlier) hle
      obtain ⟨more, rfl⟩ := hfront
      rw [List.append_assoc, List.prefix_append_right_inj] at hearlier
      have hfirst := h.first hearlier
      simp only [List.length_append]
      omega

theorem exists_headers (hline : ¬ lineEnd <:+: line)
    (h : Leads head terminator (line ++ (lineEnd ++ rest))) : ∃ headers, head = line ++ headers := by
  have hend : head ++ lineEnd <+: line ++ (lineEnd ++ rest) :=
    ((List.prefix_append_right_inj head).2 ⟨lineEnd, rfl⟩).trans h.occurs
  have hle := (Bytes.leads_lineEnd hline rest).first hend
  have hfront : line <+: head :=
    List.prefix_of_prefix_length_le (List.prefix_append _ _) ((List.prefix_append _ _).trans h.occurs) hle
  obtain ⟨headers, rfl⟩ := hfront
  exact ⟨headers, rfl⟩

theorem headers_cases (h : headers ++ terminator <+: lineEnd ++ rest) :
    headers = [] ∨ ∃ more, headers = lineEnd ++ more := by
  cases headers with
  | nil => exact .inl rfl
  | cons a headers =>
      obtain ⟨rfl, htail⟩ := List.cons_prefix_cons.1 h
      cases headers with
      | nil => exact absurd (List.cons_prefix_cons.1 htail).1 (by decide)
      | cons b headers =>
          obtain ⟨rfl, -⟩ := List.cons_prefix_cons.1 htail
          exact .inr ⟨headers, rfl⟩

/-- The content lengths are not in the first line. -/
theorem lengthsFit_congr (hline : ¬ lineEnd <:+: line) (hother : ¬ lineEnd <:+: other)
    (hheaders : headers = [] ∨ ∃ more, headers = lineEnd ++ more)
    (h : LengthsFit (line ++ headers)) : LengthsFit (other ++ headers) := by
  have hlater {first : Bytes} (hfirst : ¬ lineEnd <:+: first) (l : Bytes) :
      LaterLine (first ++ headers) l ↔ ∃ more, headers = lineEnd ++ more ∧ l ∈ lines more := by
    rw [Bytes.laterLine_iff]
    rcases hheaders with rfl | ⟨more, rfl⟩
    · rw [List.append_nil, Bytes.lines_of_absent hfirst]
      refine ⟨fun h => absurd h List.not_mem_nil, fun ⟨more, hmore, _⟩ => ?_⟩
      cases hmore
    · rw [Bytes.lines_append, Bytes.lines_of_absent hfirst, List.singleton_append, List.tail_cons]
      refine ⟨fun h => ⟨more, rfl, h⟩, fun ⟨more', hmore, h⟩ => ?_⟩
      rw [List.append_cancel_left hmore]
      exact h
  intro name value hcolon hl hname
  exact h name value hcolon ((hlater hline _).2 ((hlater hother _).1 hl)) hname

end Head

/-! ### The query in its line -/

/-- An input around the query of its first line. -/
structure Frame where
  method : Bytes
  path : Bytes
  version : Bytes
  /-- What follows the end of the first line. -/
  rest : Bytes
  method_plain : Byte.space ∉ method ∧ ¬ lineEnd <:+: method
  path_plain : Byte.space ∉ path ∧ Byte.questionMark ∉ path ∧ ¬ lineEnd <:+: path
  version_plain : ¬ lineEnd <:+: version

/-- A part of a query between its ampersands. -/
def IsSegment (segment : Bytes) : Prop :=
  Byte.space ∉ segment ∧ Byte.ampersand ∉ segment ∧ ¬ lineEnd <:+: segment

instance (segment : Bytes) : Decidable (IsSegment segment) :=
  inferInstanceAs (Decidable (Byte.space ∉ segment ∧ Byte.ampersand ∉ segment ∧ ¬ lineEnd <:+: segment))

namespace Frame

variable (f : Frame) {segments segments' : List Bytes}

def target (segments : List Bytes) : Bytes :=
  f.path ++ Byte.questionMark :: [Byte.ampersand].intercalate segments

def line (segments : List Bytes) : Bytes :=
  f.method ++ Byte.space :: (f.target segments ++ Byte.space :: f.version)

def input (segments : List Bytes) : Bytes := f.line segments ++ (lineEnd ++ f.rest)

theorem length_line_perm (hperm : segments.Perm segments') :
    (f.line segments').length = (f.line segments).length := by
  have hjoin : ([Byte.ampersand].intercalate segments').length =
      ([Byte.ampersand].intercalate segments).length := by
    rw [Bytes.length_intercalate, Bytes.length_intercalate, hperm.length_eq, hperm.flatten.length_eq]
  simp only [line, target, List.length_append, List.length_cons, hjoin]

variable (hsegments : ∀ segment ∈ segments, IsSegment segment)
include hsegments

theorem not_infix_line : ¬ lineEnd <:+: f.line segments := by
  intro h
  rcases Bytes.infix_of_append_cons (by decide) h with h | h
  · exact f.method_plain.2 h
  rcases Bytes.infix_of_append_cons (by decide) h with h | h
  · rcases Bytes.infix_of_append_cons (by decide) h with h | h
    · exact f.path_plain.2.2 h
    · obtain ⟨segment, hmem, hin⟩ := Bytes.infix_of_intercalate (by decide) (by decide) h
      exact (hsegments segment hmem).2.2 hin
  · exact f.version_plain h

theorem not_mem_intercalate : Byte.space ∉ [Byte.ampersand].intercalate segments := by
  intro h
  obtain ⟨segment, hmem, hin⟩ := Bytes.infix_of_intercalate (by decide) (List.cons_ne_nil _ _)
    (Bytes.singleton_infix_iff.2 h)
  exact (hsegments segment hmem).1 (Bytes.singleton_infix_iff.1 hin)

theorem pairs_intercalate :
    Request.pairs ([Byte.ampersand].intercalate segments) = segmentPairs segments := by
  cases segments with
  | nil => rfl
  | cons segment segments =>
      exact congrArg segmentPairs (List.splitOn_intercalate Byte.ampersand
        (fun other hmem => (hsegments other hmem).2.1) (List.cons_ne_nil _ _))

/-- The segments have no part in what a line asks for but that they give the pairs. -/
theorem asks_line_iff {e : Endpoint} {entityId : Option Nat} {pairs : List (Bytes × Bytes)} :
    Asks e entityId pairs (f.line segments) ↔ (Method.ofToken? f.method = some e.method ∧
      protocol <+: f.version ∧ ofPath? f.path = some (e, entityId)) ∧ Gives segments pairs := by
  have hspace : Byte.space ∉ f.target segments := by
    intro h
    rcases List.mem_append.1 h with h | h
    · exact f.path_plain.1 h
    · rcases List.mem_cons.1 h with h | h
      · exact absurd h (by decide)
      · exact not_mem_intercalate hsegments h
  have hline : lineParts? (f.line segments) = some (f.method, f.target segments, f.version) :=
    lineParts?_eq_some_iff.2 ⟨rfl, f.method_plain.1, hspace⟩
  have hparts : (f.target segments).cut [Byte.questionMark] =
      some (f.path, [Byte.ampersand].intercalate segments) :=
    Bytes.cut_byte_eq_some_iff.2 ⟨rfl, f.path_plain.2.1⟩
  have hcut : ((f.target segments).cut [Byte.questionMark]).getD (f.target segments, []) =
      (f.path, [Byte.ampersand].intercalate segments) := congrArg (Option.getD · _) hparts
  rw [asks_iff, gives_iff, ← pairs_intercalate hsegments]
  constructor
  · rintro ⟨method, target, version, path, query, hline', hmethod, hversion, hcut', hpath, hpairs⟩
    cases hline.symm.trans hline'
    cases hcut.symm.trans hcut'
    exact ⟨⟨hmethod, hversion, hpath⟩, hpairs⟩
  · rintro ⟨⟨hmethod, hversion, hpath⟩, hpairs⟩
    exact ⟨_, _, _, _, _, hline, hmethod, hversion, hcut, hpath, hpairs⟩

theorem exists_head_congr (hsegments' : ∀ segment ∈ segments', IsSegment segment) {head : Bytes}
    (h : Leads head terminator (f.input segments)) : ∃ headers, head = f.line segments ++ headers ∧
      Leads (f.line segments' ++ headers) terminator (f.input segments') ∧
      (LengthsFit (f.line segments ++ headers) → LengthsFit (f.line segments' ++ headers)) := by
  have hwhole := f.not_infix_line hsegments
  have hwhole' := f.not_infix_line hsegments'
  obtain ⟨headers, rfl⟩ := exists_headers hwhole h
  have hterminator := (leads_terminator_iff hwhole).1 h
  exact ⟨headers, rfl, (leads_terminator_iff hwhole').2 hterminator,
    lengthsFit_congr hwhole hwhole' (headers_cases hterminator.occurs)⟩

end Frame

/-- Every line that asks with a pair has a frame around its query, so nothing is lost by speaking of frames. -/
theorem exists_frame {line input : Bytes} {e : Endpoint} {entityId : Option Nat}
    {pairs : List (Bytes × Bytes)} (hline : Leads line lineEnd input) (hasks : Asks e entityId pairs line)
    (hne : pairs ≠ []) : ∃ (f : Frame) (segments : List Bytes), input = f.input segments ∧
      (∀ segment ∈ segments, IsSegment segment) ∧ Gives segments pairs := by
  obtain ⟨method, target, version, path, query, hparts, -, -, hcut, -, rfl⟩ := asks_iff.1 hasks
  obtain ⟨rfl, hmethod, htarget⟩ := lineParts?_eq_some_iff.1 hparts
  cases htargetCut : target.cut [Byte.questionMark] with
  | none =>
      rw [htargetCut] at hcut
      cases hcut
      exact absurd rfl hne
  | some parts =>
      rw [htargetCut] at hcut
      cases hcut
      obtain ⟨rfl, hquestion⟩ := Bytes.cut_byte_eq_some_iff.1 htargetCut
      obtain ⟨-, hplain, hjoin⟩ := Bytes.splitOn_eq_iff.1 (rfl : query.splitOn Byte.ampersand = _)
      have hwhole := hline.absent (List.cons_ne_nil _ _)
      obtain ⟨rest, rfl⟩ := hline.occurs
      let target := path ++ Byte.questionMark :: query
      have htargetIn := (infix_append_cons_left Byte.space target version).trans
        (infix_append_cons_right Byte.space method _)
      have hversionIn := (infix_append_cons_right Byte.space target version).trans
        (infix_append_cons_right Byte.space method _)
      have hsegmentIn {segment : Bytes} (hmem : segment ∈ query.splitOn Byte.ampersand) :
          segment <:+: target :=
        (hjoin ▸ Bytes.infix_intercalate hmem).trans (infix_append_cons_right Byte.questionMark path query)
      let f : Frame :=
        { method, path, version, rest
          method_plain := ⟨hmethod, fun h => hwhole (h.trans (infix_append_cons_left _ _ _))⟩
          path_plain := ⟨fun h => htarget (List.mem_append_left _ h), hquestion, fun h =>
            hwhole ((h.trans (infix_append_cons_left _ _ _)).trans htargetIn)⟩
          version_plain := fun h => hwhole (h.trans hversionIn) }
      refine ⟨f, query.splitOn Byte.ampersand, ?_, fun segment hmem => ⟨fun h => ?_,
        hplain segment hmem, fun h => ?_⟩, gives_iff.2 rfl⟩
      · simp only [f, Frame.input, Frame.line, Frame.target, hjoin, List.append_assoc]
      · exact htarget ((hsegmentIn hmem).subset h)
      · exact hwhole ((h.trans (hsegmentIn hmem)).trans htargetIn)

/-! ### Words that set one field -/

/-- The known words among the keys of these pairs are all different. -/
def Distinct {Field : Type} (ps : List (Parameter Field)) (pairs : List (Bytes × Bytes)) : Prop :=
  pairs.Pairwise fun a b => (∃ p ∈ ps, p.key = a.1) → a.1 ≠ b.1

theorem Distinct.eq_of_mem {Field : Type} {ps : List (Parameter Field)} {pairs : List (Bytes × Bytes)}
    (h : Distinct ps pairs) {key raw : Bytes} (hmem : (key, raw) ∈ pairs) (hknown : ∃ p ∈ ps, p.key = key)
    {pair : Bytes × Bytes} (hpair : pair ∈ pairs) (hkey : pair.1 = key) : pair = (key, raw) := by
  induction h with
  | nil => exact absurd hmem List.not_mem_nil
  | @cons first pairs hfirst _ ih =>
      rcases List.mem_cons.1 hmem with rfl | hrest
      · rcases List.mem_cons.1 hpair with rfl | hlater
        · rfl
        · exact absurd hkey.symm (hfirst pair hlater hknown)
      · rcases List.mem_cons.1 hpair with rfl | hlater
        · exact absurd hkey (hfirst (key, raw) hrest (hkey.symm ▸ hknown))
        · exact ih hrest hlater

/-- The two words that set the status of a filter. -/
def statusWords : List String := ["status_eq", "status_neq"]

/-- The status of a filter. -/
def Params.status? : Params → Option Status
  | .filter values => values.value .status
  | _ => .none

theorem eq_or_eq_of_mem_statusWords {a b word : String} (ha : a ∈ statusWords) (hb : b ∈ statusWords)
    (hne : b ≠ a) (h : word ∈ statusWords) : word = a ∨ word = b := by
  simp only [statusWords, List.mem_cons, List.not_mem_nil, or_false] at ha hb h
  grind

/-- The parameter is one of the two for a status, and both of them are given. -/
def StatusClash {Field : Type} (pairs : List (Bytes × Bytes)) (p : Parameter Field) : Prop :=
  p.word ∈ statusWords ∧ ∀ word ∈ statusWords, ∃ raw, (Utf8.ofString word, raw) ∈ pairs

/-- Apart from these two, no two words set one field. -/
theorem eq_of_field_eq (e : Endpoint) : ∀ p ∈ e.parameters, ∀ other ∈ e.parameters,
    other.field = p.field → other.word = p.word ∨ p.word ∈ statusWords ∧ other.word ∈ statusWords := by
  cases e with
  | filter =>
      show ∀ p ∈ filterParameters, ∀ other ∈ filterParameters, other.field = p.field →
        other.word = p.word ∨ p.word ∈ statusWords ∧ other.word ∈ statusWords
      decide +kernel
  | group | recommend | suggest =>
      show ∀ p ∈ selectionParameters, ∀ other ∈ selectionParameters, other.field = p.field →
        other.word = p.word ∨ p.word ∈ statusWords ∧ other.word ∈ statusWords
      decide +kernel
  | create | update | likes => exact fun _ h => absurd h List.not_mem_nil

/-- A field is set by one pair alone unless both words for a status are given. -/
theorem eq_of_sets {e : Endpoint} {pairs : List (Bytes × Bytes)} (hdistinct : Distinct e.parameters pairs)
    {p : Parameter e.table.Field} (hp : p ∈ e.parameters) {raw : Bytes} (hmem : (p.key, raw) ∈ pairs)
    (hclash : ¬ StatusClash pairs p) :
    ∀ pair ∈ pairs, Sets e.parameters p.field pair.1 → pair = (p.key, raw) := by
  rintro pair hpair ⟨other, hother, hfield, hkey⟩
  have hword : other.word = p.word := by
    rcases eq_of_field_eq e p hp other hother hfield with h | ⟨hpword, hotherword⟩
    · exact h
    · refine Classical.byContradiction fun hne => hclash ⟨hpword, fun word hword => ?_⟩
      rcases eq_or_eq_of_mem_statusWords hpword hotherword hne hword with rfl | rfl
      · exact ⟨raw, hmem⟩
      · have hother : (other.key, pair.2) = pair := Prod.ext hkey rfl
        exact ⟨pair.2, hother ▸ hpair⟩
  exact hdistinct.eq_of_mem hmem ⟨p, hp, rfl⟩ hpair (by rw [← hkey, Parameter.key, hword]; rfl)

/-! ### The permuted request -/

section Reorder

variable {d d' : Decoder} {r : Request} {segments segments' : List Bytes} {pairs : List (Bytes × Bytes)}
  {head : Bytes} {n : Nat} {e : Endpoint}

/-- **Parameters are independent.** A request whose known words are all different is accepted in any
order of its query, with the same bits. The field of each parameter that is given holds the meaning of
its own value before and after, unless both words for a status are given. -/
theorem decode_reorder (f : Frame) (hsegments : ∀ segment ∈ segments, IsSegment segment)
    (hgives : Gives segments pairs) (hperm : segments.Perm segments')
    (hsearched : d.Searched (f.input segments)) (hsearched' : d'.Searched (f.input segments'))
    (hhead : Leads head terminator (f.input segments)) (hcapacity : head.length ≤ r.arena.capacity)
    (hcomplete : (d.decode r (f.input segments)).result = .ok (.complete n))
    (hendpoint : (d.decode r (f.input segments)).request.endpoint = some e)
    (hdistinct : Distinct e.parameters pairs) :
    let before := (d.decode r (f.input segments)).request
    let after := (d'.decode r (f.input segments')).request
    (d'.decode r (f.input segments')).result = .ok (.complete n) ∧ after.endpoint = some e ∧
      ∃ v v' : Values e.table, before.params = e.params v ∧ after.params = e.params v' ∧
        v'.mask = v.mask ∧
        ∀ p ∈ e.parameters, ∀ raw, (p.key, raw) ∈ pairs → ¬ StatusClash pairs p →
          ∃ content, (e.table.kind p.field).Means raw content ∧
            (e.table.kind p.field).Holds before.arena (v.value p.field) content ∧
            (e.table.kind p.field).Holds after.arena (v'.value p.field) content := by
  intro before after
  have hsegments' : ∀ segment ∈ segments', IsSegment segment := fun segment hmem =>
    hsegments segment (hperm.mem_iff.2 hmem)
  obtain ⟨headers, rfl, hhead', hcongr⟩ := f.exists_head_congr hsegments hsegments' hhead
  have hlengths : LengthsFit (f.line segments ++ headers) := by
    rw [Decoder.decode_of_leads hsearched hhead] at hcomplete
    exact lengthsFit_of_complete hcomplete
  have hlengths' := hcongr hlengths
  have hline := Bytes.leads_lineEnd (f.not_infix_line hsegments) f.rest
  have hline' := Bytes.leads_lineEnd (f.not_infix_line hsegments') f.rest
  have hlength := f.length_line_perm hperm
  rw [List.length_append] at hcapacity
  have hroom : (f.line segments).length ≤ r.arena.capacity := by omega
  have hroom' : (f.line segments').length ≤ r.arena.capacity := by omega
  -- The line asks for the same in both orders, but for the order of its pairs.
  obtain ⟨entityId, pairs₀, v, hasks, hfits, hparams, hfilled⟩ :=
    Decoder.asks_of_endpoint hsearched hhead hline hlengths hroom hendpoint
  obtain ⟨hparts, hgives₀⟩ := (f.asks_line_iff hsegments).1 hasks
  obtain rfl := hgives₀.unique hgives
  obtain ⟨pairs', hgives', hpairs⟩ := hgives.exists_perm hperm
  obtain ⟨hendpoint', v', hparams', hfilled'⟩ :=
    Decoder.filled_of_asks (r := r) hsearched' hhead' hline' hlengths' hroom'
      ((f.asks_line_iff hsegments').2 ⟨hparts, hgives'⟩) fun pair hpair =>
        hfits pair (hpairs.mem_iff.2 hpair)
  obtain ⟨-, -, -, -, -, hresult⟩ :=
    Decoder.decode_of_lengthsFit (r := r) hsearched hhead hline hlengths hroom
  obtain ⟨-, -, -, -, -, hresult'⟩ :=
    Decoder.decode_of_lengthsFit (r := r) hsearched' hhead' hline' hlengths' hroom'
  refine ⟨?_, hendpoint', v, v', hparams, hparams',
    hfilled.mask_congr hfilled' fun pair => hpairs.mem_iff.symm, ?_⟩
  · rw [← hcomplete, hresult, hresult', List.length_append, List.length_append, hlength]
  · intro p hp raw hgiven hclash
    have honly := eq_of_sets hdistinct hp hgiven hclash
    obtain ⟨content, hmeans, hholds⟩ := hfilled.holds_of_mem hp hgiven honly
    obtain ⟨content', hmeans', hholds'⟩ := hfilled'.holds_of_mem hp (hpairs.mem_iff.1 hgiven)
      fun pair hpair => honly pair (hpairs.mem_iff.2 hpair)
    obtain rfl := hmeans.unique hmeans'
    exact ⟨content, hmeans, hholds, hholds'⟩

end Reorder

/-- The frame of a bare request for a filter. -/
def filterFrame : Frame where
  method := Utf8.ofString "GET"
  path := Utf8.ofString "/accounts/filter/"
  version := Utf8.ofString "HTTP/1.1"
  rest := lineEnd
  method_plain := by decide +kernel
  path_plain := by decide +kernel
  version_plain := by decide +kernel

/-- A limit is the same wherever it stands in its query. -/
theorem decode_reorder_limit :
    let segments := [Utf8.ofString "sex_eq=f", [], Utf8.ofString "limit=1", Utf8.ofString "x"]
    let segments' := [Utf8.ofString "limit=1", Utf8.ofString "x", Utf8.ofString "sex_eq=f", []]
    (Decoder.decode {} (.new {}) (filterFrame.input segments')).request.endpoint = some .filter ∧
      ∃ v v' : Values filterTable,
        (Decoder.decode {} (.new {}) (filterFrame.input segments)).request.params = .filter v ∧
        (Decoder.decode {} (.new {}) (filterFrame.input segments')).request.params = .filter v' ∧
        v'.mask = v.mask ∧ ∃ limit : Nat, ParameterKind.limit.Means (Utf8.ofString "1") limit ∧
          v.value .limit = limit ∧ v'.value .limit = limit := by
  intro segments segments'
  have hsegments : ∀ segment ∈ segments, IsSegment segment := by decide +kernel
  have hgives : Gives segments (segmentPairs segments) := gives_iff.2 rfl
  have hperm : segments.Perm segments' := by decide +kernel
  have hcut : (filterFrame.input segments).cut terminator = some (filterFrame.line segments, []) := by
    decide +kernel
  have hcomplete : (Decoder.decode {} (.new {}) (filterFrame.input segments)).result =
      .ok (.complete ((filterFrame.line segments).length + 4)) := by decide +kernel
  have hendpoint : (Decoder.decode {} (.new {}) (filterFrame.input segments)).request.endpoint =
      some .filter := by decide +kernel
  have hdistinct : Distinct filterParameters (segmentPairs segments) := by
    unfold Distinct
    decide +kernel
  obtain ⟨-, hendpoint', v, v', hbefore, hafter, hmask, hfields⟩ :=
    decode_reorder filterFrame hsegments hgives hperm (Decoder.searched_start _)
      (Decoder.searched_start _) (Bytes.leads_of_cut hcut) (by decide +kernel) hcomplete hendpoint
      hdistinct
  let limit : Parameter FilterField := ⟨"limit", .limit, .limit⟩
  have hlimit : limit ∈ filterParameters := List.mem_of_getElem? (i := 27) rfl
  have hgiven : (limit.key, Utf8.ofString "1") ∈ segmentPairs segments := by decide +kernel
  have hclash : ¬ StatusClash (segmentPairs segments) limit := fun h => absurd h.1 (by decide)
  exact ⟨hendpoint', v, v', hbefore, hafter, hmask, hfields limit hlimit _ hgiven hclash⟩

/-- The exception is one: with both words given, the status given first is gone though its bit is set. -/
theorem status_of_reorder :
    let free := Utf8.ofString "status_eq=%D1%81%D0%B2%D0%BE%D0%B1%D0%BE%D0%B4%D0%BD%D1%8B"
    let occupied := Utf8.ofString "status_neq=%D0%B7%D0%B0%D0%BD%D1%8F%D1%82%D1%8B"
    let before := (Decoder.decode {} (.new {}) (filterFrame.input [free, occupied])).request
    let after := (Decoder.decode {} (.new {}) (filterFrame.input [occupied, free])).request
    before.endpoint = some .filter ∧ after.endpoint = some .filter ∧
      Distinct filterParameters (segmentPairs [free, occupied]) ∧
      before.params.mask = 1 <<< 4 ||| 1 <<< 5 ∧ after.params.mask = before.params.mask ∧
      before.params.status? = some .occupied ∧ after.params.status? = some .free := by
  unfold Distinct
  decide +kernel

end Intake.Request
