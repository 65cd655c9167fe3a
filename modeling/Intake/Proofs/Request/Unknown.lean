import Intake.Proofs.Request.Reorder

/-!
# Parameters that nobody knows

A pair whose key is not a word of the endpoint, and an empty pair, can stand anywhere in a query without
an effect: the head is accepted, turned away or faulty as it is without them, and the request that is left
behind is the same. Only positions behind the pair move. The pair is not looked at when the head is
faulty or was turned away before, and it is passed over when the row of pairs is read.
-/

namespace Intake.Request

open Bytes (Leads lineEnd infix_append_cons_left infix_append_cons_right)

/-! ### The row of pairs -/

/-- What is left of an outcome when its unknown keys are not looked at. -/
def Outcome.effect (o : Outcome) : Verdict × Request := (o.verdict, o.request)

/-- The key is no word of the table that is read into. -/
def Params.Ignores : Params → Bytes → Prop
  | none, _ => True
  | filter _, key => filterTable.key? key = Option.none
  | selection _, key => selectionTable.key? key = Option.none

namespace Params.Ignores

variable {p p' : Params} {key name raw : Bytes} {arena arena' : Arena}

theorem read?_eq_none (h : p.Ignores key) (raw : Bytes) (arena : Arena) : p.read? key raw arena = .none := by
  cases p with
  | none => rfl
  | filter values | selection values =>
      unfold Params.Ignores at h
      rw [Params.read?, h]
      rfl

theorem of_read? (h : p.Ignores key) (hread : p.read? name raw arena = some (.accepted p' arena')) :
    p'.Ignores key := by
  cases p with
  | none => cases hread
  | filter values | selection values =>
      obtain ⟨known, -, hreading⟩ := Option.map_eq_some_iff.1 hread
      generalize values.read known raw arena = reading at hreading
      cases reading with
      | accepted values' arena' =>
          cases hreading
          exact h
      | malformed | overflow => cases hreading

end Params.Ignores

theorem Table.key?_eq_none {t : Table} {key : Bytes} (ht : t.Sound) (h : ∀ p ∈ t.parameters, p.key ≠ key) :
    t.key? key = none := by
  cases hkey : t.key? key with
  | none => rfl
  | some known =>
      have hword := ht.key?_eq_some_iff.1 hkey
      exact absurd hword.symm (h _ ((Table.mem_parameters ht).2 ⟨known, rfl⟩))

theorem ignores_ofEndpoint {e : Endpoint} {key : Bytes} (h : ∀ p ∈ e.parameters, p.key ≠ key) :
    (Params.ofEndpoint e).Ignores key := by
  rw [← e.parameters_table] at h
  have hkey := Table.key?_eq_none e.sound_table h
  cases e with
  | filter | group | recommend | suggest => exact hkey
  | create | update | likes => trivial

/-- A pair that is not known leaves no trace wherever it stands in its row. -/
theorem effect_readPairs {r : Request} {key : Bytes} (h : r.params.Ignores key) (hkey : key ≠ queryIdKey)
    (raw : Bytes) (front back : List (Bytes × Bytes)) :
    (readPairs r (front ++ (key, raw) :: back)).effect = (readPairs r (front ++ back)).effect := by
  induction front generalizing r with
  | nil =>
      rw [List.nil_append, List.nil_append, readPairs, if_neg hkey, h.read?_eq_none]
      rfl
  | cons first front ih =>
      obtain ⟨name, value⟩ := first
      rw [List.cons_append, List.cons_append, readPairs, readPairs]
      split
      · cases Decimal.unsigned? value with
        | none => rfl
        | some id => exact ih (r := { r with queryId := some id }) h
      · cases hread : r.params.read? name value r.arena with
        | none => exact ih h
        | some reading =>
            cases reading with
            | accepted params arena => exact ih (r := { r with params, arena }) (h.of_read? hread)
            | malformed | overflow => rfl

/-! ### One more segment -/

/-- The segment is empty, or a pair whose key is not known to the endpoint that the path names. -/
inductive Passes (path : Bytes) : Bytes → Prop
  | empty : Passes path []
  | pair {key raw segment : Bytes} (hpair : PairText (key, raw) segment) (hkey : key ≠ queryIdKey)
      (hunknown : ∀ e entityId, PathText e entityId path → ∀ p ∈ e.parameters, p.key ≠ key) :
      Passes path segment

/-- The second query has one segment more. It comes with an ampersand, or fills a segment that was empty. -/
inductive Inserted (segment : Bytes) : List Bytes → List Bytes → Prop
  | between {front back : List Bytes} (hne : front ++ back ≠ []) :
      Inserted segment (front ++ back) (front ++ segment :: back)
  | filling (front back : List Bytes) : Inserted segment (front ++ [] :: back) (front ++ segment :: back)

namespace Inserted

variable {path segment : Bytes} {segments segments' : List Bytes}

theorem exists_around (h : Inserted segment segments segments') : ∃ front back,
    segmentPairs segments = segmentPairs front ++ segmentPairs back ∧
      segmentPairs segments' = segmentPairs front ++ segmentPairs (segment :: back) := by
  cases h with
  | between => exact ⟨_, _, segmentPairs_append .., segmentPairs_append ..⟩
  | filling front back => exact ⟨_, _, segmentPairs_append .., segmentPairs_append ..⟩

theorem isSegment (h : Inserted segment segments segments') (hsegment : IsSegment segment)
    (hsegments : ∀ other ∈ segments, IsSegment other) : ∀ other ∈ segments', IsSegment other := by
  intro other hmem
  cases h with
  | between hne =>
      rcases List.mem_append.1 hmem with hmem | hmem
      · exact hsegments other (List.mem_append_left _ hmem)
      · rcases List.mem_cons.1 hmem with rfl | hmem
        · exact hsegment
        · exact hsegments other (List.mem_append_right _ hmem)
  | filling front back =>
      rcases List.mem_append.1 hmem with hmem | hmem
      · exact hsegments other (List.mem_append_left _ hmem)
      · rcases List.mem_cons.1 hmem with rfl | hmem
        · exact hsegment
        · exact hsegments other (List.mem_append_right _ (List.mem_cons_of_mem _ hmem))

theorem length_le (h : Inserted segment segments segments') :
    ([Byte.ampersand].intercalate segments).length ≤ ([Byte.ampersand].intercalate segments').length := by
  rw [Bytes.length_intercalate, Bytes.length_intercalate]
  cases h <;>
  · simp only [List.flatten_append, List.flatten_cons, List.length_append, List.length_cons, List.length_nil]
    omega

theorem effect_readPairs (h : Inserted segment segments segments') (hpasses : Passes path segment)
    {e : Endpoint} {entityId : Option Nat} (hpath : PathText e entityId path) {r : Request}
    (hr : r.params = .ofEndpoint e) :
    (readPairs r (segmentPairs segments')).effect = (readPairs r (segmentPairs segments)).effect := by
  obtain ⟨front, back, hbefore, hafter⟩ := h.exists_around
  rw [hbefore, hafter]
  cases hpasses with
  | empty => rfl
  | @pair key raw _ hpair hkey hunknown =>
      by_cases hne : segment = []
      · subst hne
        rfl
      · rw [segmentPairs_cons hne, ← pairText_iff.1 hpair]
        exact Request.effect_readPairs (hr ▸ ignores_ofEndpoint (hunknown e entityId hpath)) hkey raw _ _

end Inserted

/-! ### The line around the query -/

/-- A head around the query of its first line, which may lack a version. -/
structure Place where
  method : Bytes
  path : Bytes
  version : Option Bytes
  /-- What follows the end of the first line. -/
  rest : Bytes
  method_plain : Byte.space ∉ method ∧ ¬ lineEnd <:+: method
  path_plain : Byte.space ∉ path ∧ Byte.questionMark ∉ path ∧ ¬ lineEnd <:+: path
  version_plain : ∀ bs ∈ version, ¬ lineEnd <:+: bs

namespace Place

variable (f : Place) {segment : Bytes} {segments segments' : List Bytes}

def target (segments : List Bytes) : Bytes :=
  f.path ++ Byte.questionMark :: [Byte.ampersand].intercalate segments

/-- What follows the target in its line. -/
def tail : Bytes :=
  match f.version with
  | some version => Byte.space :: version
  | none => []

def line (segments : List Bytes) : Bytes := f.method ++ Byte.space :: (f.target segments ++ f.tail)

def input (segments : List Bytes) : Bytes := f.line segments ++ (lineEnd ++ f.rest)

section Line

variable (hsegments : ∀ segment ∈ segments, IsSegment segment)
include hsegments

theorem not_infix_target : ¬ lineEnd <:+: f.target segments := by
  intro h
  rcases Bytes.infix_of_append_cons (by decide) h with h | h
  · exact f.path_plain.2.2 h
  · obtain ⟨segment, hmem, hin⟩ := Bytes.infix_of_intercalate (by decide) (by decide) h
    exact (hsegments segment hmem).2.2 hin

theorem space_not_mem_target : Byte.space ∉ f.target segments := by
  intro h
  rcases List.mem_append.1 h with h | h
  · exact f.path_plain.1 h
  rcases List.mem_cons.1 h with h | h
  · exact absurd h (by decide)
  · exact Frame.not_mem_intercalate hsegments h

theorem not_infix_line : ¬ lineEnd <:+: f.line segments := by
  intro h
  rcases Bytes.infix_of_append_cons (by decide) h with h | h
  · exact f.method_plain.2 h
  unfold tail at h
  split at h
  next version hversion =>
    rcases Bytes.infix_of_append_cons (by decide) h with h | h
    · exact f.not_infix_target hsegments h
    · exact f.version_plain version hversion h
  next =>
    rw [List.append_nil] at h
    exact f.not_infix_target hsegments h

theorem lineParts?_line : lineParts? (f.line segments) =
    f.version.map fun version => (f.method, f.target segments, version) := by
  have hspace := f.space_not_mem_target hsegments
  cases hversion : f.version with
  | some version =>
      refine lineParts?_eq_some_iff.2 ⟨?_, f.method_plain.1, hspace⟩
      rw [line, tail, hversion]
  | none =>
      have hfirst := Bytes.cut_byte_eq_some_iff.2
        ⟨(rfl : f.method ++ Byte.space :: f.target segments = _), f.method_plain.1⟩
      have hline : f.line segments = f.method ++ Byte.space :: f.target segments := by
        rw [line, tail, hversion, List.append_nil]
      rw [lineParts?, hline, hfirst]
      simp only [Option.bind_eq_bind, Option.bind_some, Bytes.cut_byte_eq_none_iff.2 hspace]
      rfl

theorem readTarget_target (r : Request) : readTarget r (f.target segments) =
    match ofPath? f.path with
    | none => reject .unknownEndpoint r
    | some (endpoint, entityId) =>
      if r.method = some endpoint.method then
        readPairs { r with endpoint := some endpoint, entityId, params := .ofEndpoint endpoint }
          (segmentPairs segments)
      else reject .methodNotAllowed r := by
  have hcut : (f.target segments).cut [Byte.questionMark] =
      some (f.path, [Byte.ampersand].intercalate segments) :=
    Bytes.cut_byte_eq_some_iff.2 ⟨rfl, f.path_plain.2.1⟩
  rw [readTarget, hcut, ← Frame.pairs_intercalate hsegments]
  rfl

end Line

/-- A line has the same effect with one more segment that passes. -/
theorem effect_readLine (hsegment : IsSegment segment) (hsegments : ∀ other ∈ segments, IsSegment other)
    (hinserted : Inserted segment segments segments') (hpasses : Passes f.path segment) (r : Request) :
    (readLine r (f.line segments')).effect = (readLine r (f.line segments)).effect := by
  have hsegments' := hinserted.isSegment hsegment hsegments
  rw [readLine, readLine, f.lineParts?_line hsegments, f.lineParts?_line hsegments']
  cases f.version with
  | none => rfl
  | some version =>
      simp only [Option.map_some]
      split
      · rw [f.readTarget_target hsegments, f.readTarget_target hsegments']
        split
        · rfl
        next endpoint entityId hpath =>
          split
          · exact hinserted.effect_readPairs hpasses (ofPath?_eq_some_iff.1 hpath) rfl
          · rfl
      · rfl

end Place

/-- Every line whose target has a query has a place for it, so nothing is lost by speaking of places. -/
theorem exists_place {line input method after path query : Bytes} (hline : Leads line lineEnd input)
    (hmethod : line.cut [Byte.space] = some (method, after))
    (htarget : ((after.cut [Byte.space]).getD (after, [])).1.cut [Byte.questionMark] = some (path, query)) :
    ∃ (f : Place) (segments : List Bytes), input = f.input segments ∧
      (∀ segment ∈ segments, IsSegment segment) ∧ f.path = path ∧
      query = [Byte.ampersand].intercalate segments := by
  have hwhole := hline.absent (List.cons_ne_nil _ _)
  obtain ⟨rest, rfl⟩ := hline.occurs
  obtain ⟨rfl, hspace⟩ := Bytes.cut_byte_eq_some_iff.1 hmethod
  -- the target, and the version behind it if there is one
  obtain ⟨target, version, hafter, hfree, hcut⟩ : ∃ (target : Bytes) (version : Option Bytes),
      after = target ++ (version.elim [] (Byte.space :: ·)) ∧ Byte.space ∉ target ∧
        target.cut [Byte.questionMark] = some (path, query) := by
    cases hparts : after.cut [Byte.space] with
    | none =>
        rw [hparts] at htarget
        exact ⟨after, none, (List.append_nil _).symm, Bytes.cut_byte_eq_none_iff.1 hparts, htarget⟩
    | some parts =>
        rw [hparts] at htarget
        obtain ⟨hafter, hfree⟩ := Bytes.cut_byte_eq_some_iff.1 hparts
        exact ⟨parts.1, some parts.2, hafter, hfree, htarget⟩
  obtain ⟨rfl, hquestion⟩ := Bytes.cut_byte_eq_some_iff.1 hcut
  obtain ⟨-, hplain, hjoin⟩ := Bytes.splitOn_eq_iff.1 (rfl : query.splitOn Byte.ampersand = _)
  have hafterIn : after <:+: method ++ Byte.space :: after := infix_append_cons_right _ _ _
  have htargetIn : path ++ Byte.questionMark :: query <:+: after := hafter ▸ (List.prefix_append _ _).isInfix
  have hqueryIn : query <:+: path ++ Byte.questionMark :: query := infix_append_cons_right _ _ _
  have hsegmentIn {segment : Bytes} (hmem : segment ∈ query.splitOn Byte.ampersand) : segment <:+: query :=
    hjoin ▸ Bytes.infix_intercalate hmem
  let f : Place :=
    { method, path, version, rest
      method_plain := ⟨hspace, fun h => hwhole (h.trans (infix_append_cons_left _ _ _))⟩
      path_plain := ⟨fun h => hfree (List.mem_append_left _ h), hquestion, fun h =>
        hwhole (((h.trans (infix_append_cons_left _ _ _)).trans htargetIn).trans hafterIn)⟩
      version_plain := by
        rintro bs hbs h
        rw [Option.mem_def.1 hbs] at hafter
        have hversionIn : bs <:+: after := hafter ▸ infix_append_cons_right Byte.space _ bs
        exact hwhole ((h.trans hversionIn).trans hafterIn) }
  refine ⟨f, query.splitOn Byte.ampersand, ?_, fun segment hmem => ⟨fun h => ?_, hplain segment hmem,
    fun h => ?_⟩, rfl, hjoin.symm⟩
  · have htail : f.tail = version.elim [] (Byte.space :: ·) := by
      cases version <;> rfl
    rw [Place.input, Place.line, Place.target, hjoin, htail, List.append_assoc, hafter]
  · exact hfree (((hsegmentIn hmem).trans hqueryIn).subset h)
  · exact hwhole ((((h.trans (hsegmentIn hmem)).trans hqueryIn).trans htargetIn).trans hafterIn)

/-! ### The head around the line -/

/-- The same fault of a head that stands `k` bytes later. -/
def Fault.later (k : Nat) : Fault → Fault
  | invalidContentLength offset => invalidContentLength (offset + k)
  | capacityExceeded overflow => capacityExceeded overflow

/-- The same result for a head that ends `k` bytes later. -/
def laterResult (k : Nat) : Except Fault Progress → Except Fault Progress
  | .ok (.complete consumed) => .ok (.complete (consumed + k))
  | .ok (.incomplete missing) => .ok (.incomplete missing)
  | .error fault => .error (fault.later k)

theorem readHeaders_later (k offset length : Nat) (headers : List Bytes) :
    readHeaders (offset + k) length headers =
      ((readHeaders offset length headers).1, (readHeaders offset length headers).2.map (Fault.later k)) := by
  induction headers generalizing offset length with
  | nil => rfl
  | cons line headers ih =>
      have hnext : offset + k + line.length + lineEnd.length = offset + line.length + lineEnd.length + k := by
        omega
      simp only [readHeaders, hnext]
      split
      · exact ih _ _
      · split
        · split
          · exact ih _ _
          · simp only [Option.map_some, Fault.later, Prod.mk.injEq, Option.some.injEq,
              Fault.invalidContentLength.injEq, true_and]
            omega
        · exact ih _ _

theorem headParts_append {line headers : Bytes} (hline : ¬ lineEnd <:+: line)
    (hheaders : headers = [] ∨ ∃ more, headers = lineEnd ++ more) :
    headParts (line ++ headers) = (line, (headParts headers).2) := by
  rcases hheaders with rfl | ⟨more, rfl⟩
  · rw [headParts, List.append_nil, Bytes.cut_of_absent hline]
    rfl
  · obtain ⟨after, hcut⟩ := (Bytes.leads_lineEnd hline more).cut
    have hafter := Bytes.eq_of_cut hcut
    rw [List.append_assoc] at hafter
    obtain rfl := List.append_cancel_left (List.append_cancel_left hafter)
    rw [headParts, hcut]
    rfl

/-- A head with another first line that has the same effect comes to the same. -/
theorem readHead_congr {line line' headers : Bytes} {k : Nat} {r : Request}
    (hline : ¬ lineEnd <:+: line) (hline' : ¬ lineEnd <:+: line')
    (hheaders : headers = [] ∨ ∃ more, headers = lineEnd ++ more)
    (hlength : line'.length = line.length + k)
    (heffect : ∀ r, (readLine r line').effect = (readLine r line).effect) :
    (readHead r (line' ++ headers)).result = laterResult k (readHead r (line ++ headers)).result ∧
      (readHead r (line' ++ headers)).request = (readHead r (line ++ headers)).request := by
  have hparts {first : Bytes} (hfirst : ¬ lineEnd <:+: first) :
      ((first ++ headers).cut lineEnd).getD (first ++ headers, []) = (first, (headParts headers).2) :=
    headParts_append hfirst hheaders
  have hoffset : line'.length + lineEnd.length = line.length + lineEnd.length + k := by omega
  have hconsumed : (line' ++ headers).length + terminator.length =
      (line ++ headers).length + terminator.length + k := by
    rw [List.length_append, List.length_append, hlength]
    omega
  simp only [readHead, hparts hline, hparts hline', hoffset,
    readHeaders_later k (line.length + lineEnd.length), hconsumed]
  generalize readHeaders (line.length + lineEnd.length) 0 (headParts headers).2.lines = found
  obtain ⟨contentLength, fault⟩ := found
  cases fault with
  | some fault => exact ⟨rfl, rfl⟩
  | none =>
      have hsame := heffect { r.reset with contentLength }
      simp only [Option.map_none]
      generalize readLine { r.reset with contentLength } line' = outcome' at hsame
      generalize readLine { r.reset with contentLength } line = outcome at hsame
      obtain ⟨verdict, request, unknown⟩ := outcome
      obtain ⟨verdict', request', unknown'⟩ := outcome'
      obtain ⟨rfl, rfl⟩ := Prod.mk.inj hsame
      cases verdict' <;> exact ⟨rfl, rfl⟩

/-- **Unknown parameters are transparent.** Whatever becomes of a head with a query, the same becomes of it
with one more pair that is empty or has an unknown key, wherever the pair is put: the result is the same
but that what stands behind the pair moves with it, and the request is the same altogether. -/
theorem decode_insert_pair (f : Place) {segment : Bytes} {segments segments' : List Bytes}
    {d d' : Decoder} (r : Request) (hsegment : IsSegment segment)
    (hsegments : ∀ other ∈ segments, IsSegment other) (hpasses : Passes f.path segment)
    (hinserted : Inserted segment segments segments')
    (hsearched : d.Searched (f.input segments)) (hsearched' : d'.Searched (f.input segments'))
    (hhead : terminator <:+: f.input segments) :
    ∃ k, (f.input segments').length = (f.input segments).length + k ∧
      (d'.decode r (f.input segments')).result = laterResult k (d.decode r (f.input segments)).result ∧
      (d'.decode r (f.input segments')).request = (d.decode r (f.input segments)).request := by
  have hwhole := f.not_infix_line hsegments
  have hwhole' := f.not_infix_line (hinserted.isSegment hsegment hsegments)
  obtain ⟨head, hleads⟩ := Bytes.exists_leads hhead
  obtain ⟨headers, rfl⟩ := exists_headers hwhole hleads
  have hterminator := (leads_terminator_iff hwhole).1 hleads
  have hleads' : Leads (f.line segments' ++ headers) terminator (f.input segments') :=
    (leads_terminator_iff hwhole').2 hterminator
  obtain ⟨k, hk⟩ := Nat.exists_eq_add_of_le hinserted.length_le
  have hlength : (f.line segments').length = (f.line segments).length + k := by
    simp only [Place.line, Place.target, List.length_append, List.length_cons, hk]
    omega
  refine ⟨k, ?_, ?_⟩
  · simp only [Place.input, List.length_append, hlength]
    omega
  · rw [Decoder.decode_of_leads hsearched hleads, Decoder.decode_of_leads hsearched' hleads']
    exact readHead_congr hwhole hwhole' (headers_cases hterminator.occurs) hlength
      (f.effect_readLine hsegment hsegments hinserted hpasses)

/-- A frame is a place with a version. -/
def Frame.place (f : Frame) : Place where
  method := f.method
  path := f.path
  version := some f.version
  rest := f.rest
  method_plain := f.method_plain
  path_plain := f.path_plain
  version_plain _ hversion := Option.some.inj hversion ▸ f.version_plain

/-- A pair with a cut escape, in the middle of a query. -/
theorem decode_insert_pair_cut :
    let front := [Utf8.ofString "sex_eq=f"]
    let back := [Utf8.ofString "limit=1"]
    let before := Decoder.decode {} (.new {}) (filterFrame.place.input (front ++ back))
    let after := Decoder.decode {} (.new {})
      (filterFrame.place.input (front ++ Utf8.ofString "color=%4" :: back))
    before.result = .ok (.complete 51) ∧ after.result = .ok (.complete 60) ∧
      after.request = before.request := by
  intro front back before after
  have hsegment : IsSegment (Utf8.ofString "color=%4") := by decide +kernel
  have hsegments : ∀ other ∈ front ++ back, IsSegment other := by decide +kernel
  have hpath : ofPath? filterFrame.place.path = some (.filter, none) := by decide +kernel
  have hpair : PairText (Utf8.ofString "color", Utf8.ofString "%4") (Utf8.ofString "color=%4") :=
    pairText_iff.2 (by decide +kernel)
  have hpasses : Passes filterFrame.place.path (Utf8.ofString "color=%4") := by
    refine .pair hpair (by decide +kernel) fun e entityId hroute => ?_
    cases hpath.symm.trans (ofPath?_eq_some_iff.2 hroute)
    show ∀ p ∈ filterParameters, p.key ≠ _
    decide +kernel
  have hresult : before.result = .ok (.complete 51) := by decide +kernel
  obtain ⟨k, hlength, hafter, hrequest⟩ := decode_insert_pair filterFrame.place (.new {}) hsegment
    hsegments hpasses (.between (List.cons_ne_nil _ _)) (Decoder.searched_start _)
    (Decoder.searched_start _) ⟨filterFrame.place.line (front ++ back), [], List.append_nil _⟩
  have hk : (filterFrame.place.input (front ++ Utf8.ofString "color=%4" :: back)).length =
      (filterFrame.place.input (front ++ back)).length + 9 := by decide +kernel
  obtain rfl : k = 9 := Nat.add_left_cancel (hlength.symm.trans hk)
  exact ⟨hresult, hafter.trans (congrArg (laterResult 9) hresult), hrequest⟩

end Intake.Request
