import Intake.Proofs.Request.Table

/-!
# Reading a query

A query is its segments with ampersands between them, and each segment that is not empty is a pair. All
pairs have to fit: a number of the query has to be a number, and the value of a known parameter has to
mean something. Then the whole row is read, and what is left behind is what `Filled` says. One pair that
does not fit turns the request away.
-/

namespace Intake.Request

/-! ### The pairs of a query -/

/-- A segment is a key and a value with the first equals sign between them, or a key alone. -/
inductive PairText : Bytes × Bytes → Bytes → Prop
  | both {key raw : Bytes} (h : Byte.equals ∉ key) : PairText (key, raw) (key ++ Byte.equals :: raw)
  | key {key : Bytes} (h : Byte.equals ∉ key) : PairText (key, []) key

/-- The pairs that segments give. Empty segments give none. -/
inductive Gives : List Bytes → List (Bytes × Bytes) → Prop
  | nil : Gives [] []
  | empty {segments : List Bytes} {pairs : List (Bytes × Bytes)} (h : Gives segments pairs) :
      Gives ([] :: segments) pairs
  | cons {segment : Bytes} {segments : List Bytes} {pair : Bytes × Bytes}
      {pairs : List (Bytes × Bytes)} (hne : segment ≠ []) (hpair : PairText pair segment)
      (h : Gives segments pairs) : Gives (segment :: segments) (pair :: pairs)

/-- A query of these pairs. -/
def QueryText (pairs : List (Bytes × Bytes)) (query : Bytes) : Prop :=
  ∃ segments : List Bytes, segments ≠ [] ∧ (∀ segment ∈ segments, Byte.ampersand ∉ segment) ∧
    query = [Byte.ampersand].intercalate segments ∧ Gives segments pairs

theorem pairText_iff {segment : Bytes} {p : Bytes × Bytes} : PairText p segment ↔ p = pair segment := by
  constructor
  · intro h
    rw [pair]
    cases h with
    | both hkey => rw [Bytes.cut_byte_eq_some_iff.2 ⟨rfl, hkey⟩, Option.getD_some]
    | key hkey => rw [Bytes.cut_byte_eq_none_iff.2 hkey, Option.getD_none]
  · rintro rfl
    rw [pair]
    cases hcut : segment.cut [Byte.equals] with
    | none => exact .key (Bytes.cut_byte_eq_none_iff.1 hcut)
    | some parts =>
        obtain ⟨hsegment, hkey⟩ := Bytes.cut_byte_eq_some_iff.1 hcut
        rw [Option.getD_some]
        conv => rhs; rw [hsegment]
        exact .both hkey

/-- The pairs of segments, as they are read. -/
def segmentPairs (segments : List Bytes) : List (Bytes × Bytes) :=
  (segments.filter (· ≠ [])).map pair

theorem segmentPairs_cons {segment : Bytes} (hne : segment ≠ []) (segments : List Bytes) :
    segmentPairs (segment :: segments) = pair segment :: segmentPairs segments := by
  simp [segmentPairs, hne]

theorem segmentPairs_append (front back : List Bytes) :
    segmentPairs (front ++ back) = segmentPairs front ++ segmentPairs back := by
  rw [segmentPairs, List.filter_append, List.map_append]
  rfl

theorem gives_iff {segments : List Bytes} {pairs : List (Bytes × Bytes)} :
    Gives segments pairs ↔ pairs = segmentPairs segments := by
  constructor
  · intro h
    induction h with
    | nil => rfl
    | empty _ ih => exact ih
    | cons hne hpair _ ih =>
        rw [ih, pairText_iff.1 hpair, segmentPairs_cons hne]
  · rintro rfl
    induction segments with
    | nil => exact .nil
    | cons segment segments ih =>
        by_cases hne : segment = []
        · subst hne
          exact .empty ih
        · rw [segmentPairs_cons hne]
          exact .cons hne (pairText_iff.2 rfl) ih

theorem Gives.unique {segments : List Bytes} {pairs pairs' : List (Bytes × Bytes)}
    (h : Gives segments pairs) (h' : Gives segments pairs') : pairs = pairs' :=
  (gives_iff.1 h).trans (gives_iff.1 h').symm

theorem Gives.exists_perm {segments segments' : List Bytes} {pairs : List (Bytes × Bytes)}
    (h : Gives segments pairs) (hperm : segments.Perm segments') :
    ∃ pairs', Gives segments' pairs' ∧ pairs.Perm pairs' :=
  ⟨_, gives_iff.2 rfl, gives_iff.1 h ▸ (hperm.filter _).map _⟩

theorem queryText_iff {pairs : List (Bytes × Bytes)} {query : Bytes} :
    QueryText pairs query ↔ pairs = Request.pairs query := by
  constructor
  · rintro ⟨segments, hne, hplain, rfl, hgives⟩
    rw [Request.pairs, List.splitOn_intercalate Byte.ampersand hplain hne, gives_iff.1 hgives]
    rfl
  · rintro rfl
    obtain ⟨hne, hplain, hjoin⟩ := Bytes.splitOn_eq_iff.1 (rfl : query.splitOn Byte.ampersand = _)
    exact ⟨_, hne, hplain, hjoin.symm, gives_iff.2 rfl⟩

/-! ### How much room a query needs -/

/-- The length of all values as they are written. -/
def weight (pairs : List (Bytes × Bytes)) : Nat := (pairs.flatMap Prod.snd).length

theorem weight_cons (pair : Bytes × Bytes) (pairs : List (Bytes × Bytes)) :
    weight (pair :: pairs) = pair.2.length + weight pairs := by
  rw [weight, List.flatMap_cons, List.length_append, weight]

theorem PairText.length_le {pair : Bytes × Bytes} {segment : Bytes} (h : PairText pair segment) :
    pair.2.length ≤ segment.length := by
  cases h with
  | both =>
      simp only [List.length_append, List.length_cons]
      omega
  | key => exact Nat.zero_le _

theorem Gives.weight_le {segments : List Bytes} {pairs : List (Bytes × Bytes)}
    (h : Gives segments pairs) : weight pairs ≤ segments.flatten.length := by
  induction h with
  | nil => exact Nat.le_refl _
  | empty _ ih => simpa using ih
  | cons _ hpair _ ih =>
      have hle := hpair.length_le
      rw [weight_cons, List.flatten_cons, List.length_append]
      omega

theorem QueryText.weight_le {pairs : List (Bytes × Bytes)} {query : Bytes} (h : QueryText pairs query) :
    weight pairs ≤ query.length := by
  obtain ⟨segments, -, -, rfl, hgives⟩ := h
  rw [Bytes.length_intercalate]
  exact Nat.le_trans hgives.weight_le (Nat.le_add_right _ _)

/-! ### Reading the pairs -/

/-- A pair that is no reason to turn the request away. -/
def PairFits {Field : Type} (ps : List (Parameter Field)) (pair : Bytes × Bytes) : Prop :=
  (pair.1 = queryIdKey → ∃ n, Decimal.Spells n pair.2 ∧ n < Decimal.unsignedBound) ∧
    ∀ p ∈ ps, p.key = pair.1 → ∃ content, p.kind.Means pair.2 content

/-- The number of a query is the one that was given last. -/
def NumberedBy (pairs : List (Bytes × Bytes)) (queryId : Option Nat) : Prop :=
  Latest (· = queryIdKey) pairs (queryId = none) fun raw =>
    ∃ n, Decimal.Spells n raw ∧ n < Decimal.unsignedBound ∧ queryId = some n

section Reading

variable {t : Table} {wrap : Values t → Params} {done pairs : List (Bytes × Bytes)} {r s : Request}

/-- How the reading of `pairs` can end when the pairs of `done` have been read before. -/
inductive Ends (wrap : Values t → Params) (done pairs : List (Bytes × Bytes)) (r : Request) :
    Outcome → Prop
  | accepted {v : Values t} {arena : Arena} {queryId : Option Nat} {unknown : List Bytes}
      (hfits : ∀ pair ∈ pairs, PairFits t.parameters pair)
      (hfilled : Filled t t.parameters (done ++ pairs) v arena)
      (hnumber : NumberedBy (done ++ pairs) queryId) :
      Ends wrap done pairs r ⟨.accepted, { r with params := wrap v, arena, queryId }, unknown⟩
  | rejected {reason : Rejection} {s : Request} {unknown : List Bytes}
      (hfits : ¬ ∀ pair ∈ pairs, PairFits t.parameters pair) :
      Ends wrap done pairs r ⟨.rejected reason, s.turnAway, unknown⟩
  | overflow {o : Overflow} {s : Request} {unknown : List Bytes}
      (h : r.arena.capacity < r.arena.cursor + weight pairs) :
      Ends wrap done pairs r ⟨.overflow o, s, unknown⟩

theorem Ends.unknown {o : Outcome} (h : Ends wrap done pairs r o) (unknown : List Bytes) :
    Ends wrap done pairs r { o with unknown } := by
  cases h with
  | accepted hfits hfilled hnumber => exact .accepted hfits hfilled hnumber
  | rejected hfits => exact .rejected hfits
  | overflow h => exact .overflow h

/-- One pair that fits, read in front of the others. Reading it may have changed the parameters, the
number and the arena, which then has at most the value of the pair in it on top. -/
theorem Ends.cons {pair : Bytes × Bytes} {o : Outcome} (hpair : PairFits t.parameters pair)
    (hsame : { s with params := r.params, arena := r.arena, queryId := r.queryId } = r)
    (hcapacity : s.arena.capacity = r.arena.capacity)
    (hcursor : s.arena.cursor ≤ r.arena.cursor + pair.2.length)
    (h : Ends wrap (done ++ [pair]) pairs s o) : Ends wrap done (pair :: pairs) r o := by
  cases h with
  | @accepted v arena queryId unknown hfits hfilled hnumber =>
      rw [← List.append_cons] at hfilled hnumber
      have hrequest : { s with params := wrap v, arena, queryId } =
          { r with params := wrap v, arena, queryId } := by
        rw [← hsame]
      rw [hrequest]
      exact .accepted (List.forall_mem_cons.2 ⟨hpair, hfits⟩) hfilled hnumber
  | rejected hfits => exact .rejected fun h => hfits (List.forall_mem_cons.1 h).2
  | overflow h =>
      refine .overflow ?_
      rw [weight_cons]
      omega

/-- The table is the one by which the parameters look up a key. -/
def Wraps (t : Table) (wrap : Values t → Params) : Prop :=
  ∀ v name raw arena, (wrap v).read? name raw arena =
    (t.key? name).map fun key => (v.read key raw arena).map wrap

theorem pairFits_queryId (ht : t.Sound) {raw : Bytes} : PairFits t.parameters (queryIdKey, raw) ↔
    ∃ n, Decimal.Spells n raw ∧ n < Decimal.unsignedBound := by
  refine ⟨fun h => h.1 rfl, fun h => ⟨fun _ => h, fun p hp hkey => ?_⟩⟩
  obtain ⟨key, rfl⟩ := (Table.mem_parameters ht).1 hp
  exact absurd hkey (ht.word_ne key)

theorem pairFits_word (ht : t.Sound) {key : t.Key} {raw : Bytes} :
    PairFits t.parameters (t.word key, raw) ↔ ∃ content, (t.kind (t.field key)).Means raw content := by
  constructor
  · exact fun h => h.2 _ ((Table.mem_parameters ht).2 ⟨key, rfl⟩) rfl
  · refine fun h => ⟨fun hkey => absurd hkey (ht.word_ne key), fun p hp hkey => ?_⟩
    obtain ⟨other, rfl⟩ := (Table.mem_parameters ht).1 hp
    obtain rfl := ht.word_inj hkey
    exact h

/-- A key that the table does not know fits with any value. -/
theorem pairFits_of_key?_eq_none (ht : t.Sound) {key raw : Bytes} (hkey : key ≠ queryIdKey)
    (h : t.key? key = none) :
    PairFits t.parameters (key, raw) ∧ ∀ p ∈ t.parameters, p.key ≠ key := by
  have hne : ∀ p ∈ t.parameters, p.key ≠ key := by
    intro p hp hword
    obtain ⟨known, rfl⟩ := (Table.mem_parameters ht).1 hp
    rw [ht.key?_eq_some_iff.2 hword.symm] at h
    cases h
  exact ⟨⟨fun h => absurd h hkey, fun p hp hword => absurd hword (hne p hp)⟩, hne⟩

/-- What the reading of a known key can come to. -/
inductive KeyRead (wrap : Values t → Params) (v : Values t) (known : t.Key) (raw : Bytes) (arena : Arena) :
    Reading Params → Prop
  | accepted {value : t.Value (t.field known)} {content : (t.kind (t.field known)).Content} {b : Arena}
      (hmeans : (t.kind (t.field known)).Means raw content)
      (hholds : (t.kind (t.field known)).Holds b value content)
      (hcontents : b.contents = arena.contents ++ (t.kind (t.field known)).kept content)
      (hcapacity : b.capacity = arena.capacity) (hfits : b.cursor ≤ b.capacity) :
      KeyRead wrap v known raw arena (.accepted (wrap (v.set known value)) b)
  | malformed (h : ¬ PairFits t.parameters (t.word known, raw)) : KeyRead wrap v known raw arena .malformed
  | overflow {o : Overflow} {b : Arena} (h : arena.capacity < arena.cursor + raw.length) :
      KeyRead wrap v known raw arena (.overflow o b)

theorem keyRead_of_read? (ht : t.Sound) (hwrap : Wraps t wrap) {v : Values t} {key raw : Bytes}
    {arena : Arena} (hroom : arena.cursor ≤ arena.capacity) {reading : Reading Params}
    (h : (wrap v).read? key raw arena = some reading) :
    ∃ known, key = t.word known ∧ KeyRead wrap v known raw arena reading := by
  rw [hwrap, Option.map_eq_some_iff] at h
  obtain ⟨known, hknown, rfl⟩ := h
  refine ⟨known, ht.key?_eq_some_iff.1 hknown, ?_⟩
  have hwithin := within_read (t.kind (t.field known)) raw arena
  have hanswers := ParameterKind.answers_read hroom (t.kind (t.field known)) raw
  unfold Values.read
  generalize (t.kind (t.field known)).read raw arena = answer at hwithin hanswers ⊢
  cases hanswers with
  | accepted hmeans hholds hcontents hfits => exact .accepted hmeans hholds hcontents hwithin hfits
  | malformed hnone =>
      refine .malformed fun h => ?_
      obtain ⟨content, hcontent⟩ := (pairFits_word ht).1 h
      exact hnone content hcontent
  | overflow hfull => exact .overflow hfull

/-- However the reading of pairs ends, it ends as it should. -/
theorem ends_readPairs (ht : t.Sound) (hwrap : Wraps t wrap) {v : Values t} (hparams : r.params = wrap v)
    (hfilled : Filled t t.parameters done v r.arena) (hnumber : NumberedBy done r.queryId)
    (hroom : r.arena.cursor ≤ r.arena.capacity) : Ends wrap done pairs r (readPairs r pairs) := by
  fun_induction readPairs r pairs generalizing done v with
  | case1 r =>
      have hrequest : r = { r with params := wrap v, arena := r.arena, queryId := r.queryId } := by
        rw [← hparams]
      rw [hrequest]
      rw [← List.append_nil done] at hfilled hnumber
      exact .accepted (fun _ hpair => absurd hpair List.not_mem_nil) hfilled hnumber
  | case2 r raw rest id hid ih =>
      obtain ⟨hspells, hlt⟩ := Decimal.unsigned?_eq_some_iff.1 hid
      have hne : ∀ p ∈ t.parameters, p.key ≠ queryIdKey := by
        intro p hp
        obtain ⟨key, rfl⟩ := (Table.mem_parameters ht).1 hp
        exact ht.word_ne key
      refine .cons (s := { r with queryId := some id }) ((pairFits_queryId ht).2 ⟨id, hspells, hlt⟩)
        rfl rfl (Nat.le_add_right ..) (ih hparams (hfilled.snoc_unknown hne) ?_ hroom)
      exact .snoc_self rfl ⟨id, hspells, hlt, rfl⟩
  | case3 r raw rest hid =>
      refine .rejected fun h => ?_
      obtain ⟨n, hn⟩ := (pairFits_queryId ht).1 (h _ List.mem_cons_self)
      rw [Decimal.unsigned?_eq_some_iff.2 hn] at hid
      cases hid
  | case4 r key raw rest hkey hread outcome =>
      rename_i ih
      rw [hparams, hwrap, Option.map_eq_none_iff] at hread
      obtain ⟨hfits, hne⟩ := pairFits_of_key?_eq_none ht hkey hread
      exact (Ends.cons hfits rfl rfl (Nat.le_add_right ..) (ih hparams (hfilled.snoc_unknown hne)
        (hnumber.snoc_of_not hkey) hroom)).unknown _
  | case5 r key raw rest hkey params arena hread ih =>
      rw [hparams] at hread
      obtain ⟨known, rfl, hanswer⟩ := keyRead_of_read? ht hwrap hroom hread
      cases hanswer with
      | @accepted value content b hmeans hholds hcontents hcapacity hfits =>
          have hlength := congrArg List.length hcontents
          have hle := hmeans.length_kept_le
          rw [List.length_append, Arena.length_contents, Arena.length_contents] at hlength
          refine .cons (s := { r with params := wrap (v.set known value), arena })
            ((pairFits_word ht).2 ⟨content, hmeans⟩) rfl hcapacity ?_
            (ih rfl (hfilled.snoc_known ht known hmeans hholds hcontents hcapacity)
              (hnumber.snoc_of_not hkey) hfits)
          show arena.cursor ≤ r.arena.cursor + raw.length
          omega
  | case6 r key raw rest hkey hread =>
      rw [hparams] at hread
      obtain ⟨known, rfl, hanswer⟩ := keyRead_of_read? ht hwrap hroom hread
      cases hanswer with
      | malformed hnot => exact .rejected fun h => hnot (h _ List.mem_cons_self)
  | case7 r key raw rest hkey o arena hread =>
      rw [hparams] at hread
      obtain ⟨known, rfl, hanswer⟩ := keyRead_of_read? ht hwrap hroom hread
      cases hanswer with
      | overflow hfull =>
          refine .overflow ?_
          rw [weight_cons]
          show r.arena.capacity < r.arena.cursor + (raw.length + weight rest)
          omega

end Reading

end Intake.Request
