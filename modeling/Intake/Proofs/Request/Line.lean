import Intake.Proofs.Request.Endpoint
import Intake.Request.Line

/-!
# The grammar of request lines

A request line asks for an endpoint, about an account or none, with a row of pairs. The grammar says so
part by part: a method, a target with a path and perhaps a query, and a version. A line that the grammar
has is read up to its pairs, and any other is turned away.
-/

namespace Intake.Request

/-! ### Paths -/

/-- The account in a path. -/
def AccountText (id : Nat) (bs : Bytes) : Prop := Decimal.Spells id bs ∧ id < Decimal.unsignedBound

/-- What a path has behind its root. -/
inductive RouteText : Endpoint → Option Nat → Bytes → Prop
  | filter : RouteText .filter none (Utf8.ofString "filter")
  | group : RouteText .group none (Utf8.ofString "group")
  | create : RouteText .create none (Utf8.ofString "new")
  | likes : RouteText .likes none (Utf8.ofString "likes")
  | update {id : Nat} {account : Bytes} (h : AccountText id account) :
      RouteText .update (some id) account
  | recommend {id : Nat} {account : Bytes} (h : AccountText id account) :
      RouteText .recommend (some id) (account ++ Utf8.ofString "/recommend")
  | suggest {id : Nat} {account : Bytes} (h : AccountText id account) :
      RouteText .suggest (some id) (account ++ Utf8.ofString "/suggest")

/-- A path, which may have one slash too many at its end. -/
def PathText (e : Endpoint) (entityId : Option Nat) (path : Bytes) : Prop :=
  ∃ route slash, RouteText e entityId route ∧ (slash = [] ∨ slash = [Byte.slash]) ∧
    path = Utf8.ofString "/accounts/" ++ (route ++ slash)

variable {e : Endpoint} {entityId : Option Nat} {route path : Bytes}

theorem AccountText.not_mem_slash {id : Nat} {account : Bytes} (h : AccountText id account) :
    Byte.slash ∉ account := fun hmem =>
  absurd (h.1.2.1 _ hmem) (by decide)

theorem collectionEndpoint?_eq_some_iff {word : Bytes} :
    collectionEndpoint? word = some e ↔ RouteText e none word := by
  constructor
  · intro h
    obtain ⟨⟨name, endpoint⟩, hmem, hentry⟩ := List.exists_of_findSome?_eq_some h
    obtain ⟨rfl, hendpoint⟩ := Option.ite_none_right_eq_some.1 hentry
    cases hendpoint
    simp only [List.mem_cons, List.not_mem_nil, or_false, Prod.mk.injEq] at hmem
    rcases hmem with ⟨rfl, rfl⟩ | ⟨rfl, rfl⟩ | ⟨rfl, rfl⟩ | ⟨rfl, rfl⟩
    · exact .filter
    · exact .group
    · exact .create
    · exact .likes
  · intro h
    cases h <;> decide

theorem accountEndpoint?_eq_some_iff {word : Bytes} : accountEndpoint? word = some e ↔
    e = .recommend ∧ word = Utf8.ofString "recommend" ∨
      e = .suggest ∧ word = Utf8.ofString "suggest" := by
  constructor
  · intro h
    obtain ⟨⟨name, endpoint⟩, hmem, hentry⟩ := List.exists_of_findSome?_eq_some h
    obtain ⟨rfl, hendpoint⟩ := Option.ite_none_right_eq_some.1 hentry
    cases hendpoint
    simp only [List.mem_cons, List.not_mem_nil, or_false, Prod.mk.injEq] at hmem
    rcases hmem with ⟨rfl, rfl⟩ | ⟨rfl, rfl⟩
    · exact .inl ⟨rfl, rfl⟩
    · exact .inr ⟨rfl, rfl⟩
  · rintro (⟨rfl, rfl⟩ | ⟨rfl, rfl⟩) <;> decide

/-- No account is named like a collection. -/
theorem AccountText.collectionEndpoint?_eq_none {id : Nat} {account : Bytes}
    (h : AccountText id account) : collectionEndpoint? account = none := by
  have hdigits : account.all Byte.isDigit := List.all_eq_true.2 h.1.2.1
  cases hword : collectionEndpoint? account with
  | none => rfl
  | some e =>
      have hroute := collectionEndpoint?_eq_some_iff.1 hword
      cases hroute <;> exact absurd hdigits (by decide)

theorem splitOn_account {id : Nat} {account word : Bytes} (h : AccountText id account)
    (hword : Byte.slash ∉ word) :
    (account ++ Byte.slash :: word).splitOn Byte.slash = [account, word] := by
  have hparts : ∀ part ∈ [account, word], Byte.slash ∉ part := by
    simp only [List.forall_mem_cons, List.not_mem_nil, false_imp_iff, implies_true, and_true]
    exact ⟨h.not_mem_slash, hword⟩
  refine Bytes.splitOn_eq_iff.2 ⟨List.cons_ne_nil _ _, hparts, ?_⟩
  rw [List.intercalate_cons_cons, List.intercalate_singleton, List.append_assoc,
    List.singleton_append]

theorem ofSegments?_splitOn (h : RouteText e entityId route) :
    ofSegments? (route.splitOn Byte.slash) = some (e, entityId) := by
  cases h with
  | filter | group | create | likes => decide
  | update h =>
      have hsplit : route.splitOn Byte.slash = [route] := Bytes.splitOn_eq_iff.2
        ⟨List.cons_ne_nil _ _, by simpa using h.not_mem_slash, List.intercalate_singleton⟩
      rw [hsplit, ofSegments?, h.collectionEndpoint?_eq_none]
      simp only [Decimal.unsigned?_eq_some_iff.2 h, Option.map_some]
  | recommend h =>
      have hword : Utf8.ofString "/recommend" = Byte.slash :: Utf8.ofString "recommend" := by decide
      rw [hword, splitOn_account h (by decide), ofSegments?, Decimal.unsigned?_eq_some_iff.2 h]
      rfl
  | suggest h =>
      have hword : Utf8.ofString "/suggest" = Byte.slash :: Utf8.ofString "suggest" := by decide
      rw [hword, splitOn_account h (by decide), ofSegments?, Decimal.unsigned?_eq_some_iff.2 h]
      rfl

theorem routeText_of_ofSegments? {segments : List Bytes}
    (h : ofSegments? segments = some (e, entityId)) :
    RouteText e entityId ([Byte.slash].intercalate segments) := by
  unfold ofSegments? at h
  split at h
  next segment =>
    rw [List.intercalate_singleton]
    split at h
    next endpoint hword =>
      cases h
      exact collectionEndpoint?_eq_some_iff.1 hword
    next =>
      obtain ⟨id, hid, hpair⟩ := Option.map_eq_some_iff.1 h
      cases hpair
      exact .update (Decimal.unsigned?_eq_some_iff.1 hid)
  next account word =>
    obtain ⟨endpoint, hendpoint, h⟩ := Option.bind_eq_some_iff.1 h
    obtain ⟨id, hid, hpair⟩ := Option.bind_eq_some_iff.1 h
    cases hpair
    have haccount := Decimal.unsigned?_eq_some_iff.1 hid
    rw [List.intercalate_cons_cons, List.intercalate_singleton, List.append_assoc]
    rcases accountEndpoint?_eq_some_iff.1 hendpoint with ⟨rfl, rfl⟩ | ⟨rfl, rfl⟩
    · exact .recommend haccount
    · exact .suggest haccount
  · cases h

theorem RouteText.getLast?_ne_slash (h : RouteText e entityId route) :
    route.getLast? ≠ some Byte.slash := by
  cases h with
  | filter | group | create | likes => decide
  | update h => exact fun hlast => h.not_mem_slash (List.mem_of_getLast? hlast)
  | recommend h =>
      have hlast : (Utf8.ofString "/recommend").getLast? = some 0x64 := by decide
      rw [List.getLast?_append, hlast]
      exact fun h => absurd (Option.some.inj h) (by decide)
  | suggest h =>
      have hlast : (Utf8.ofString "/suggest").getLast? = some 0x74 := by decide
      rw [List.getLast?_append, hlast]
      exact fun h => absurd (Option.some.inj h) (by decide)

theorem dropSlash_of_ne {bs : Bytes} (h : bs.getLast? ≠ some Byte.slash) : dropSlash bs = bs := if_neg h

theorem dropSlash_concat (bs : Bytes) : dropSlash (bs ++ [Byte.slash]) = bs := by
  rw [dropSlash, if_pos List.getLast?_concat, List.dropLast_concat]

theorem exists_slash (bs : Bytes) :
    ∃ slash, (slash = [] ∨ slash = [Byte.slash]) ∧ bs = dropSlash bs ++ slash := by
  by_cases h : bs.getLast? = some Byte.slash
  · obtain ⟨front, rfl⟩ := List.getLast?_eq_some_iff.1 h
    exact ⟨_, .inr rfl, by rw [dropSlash_concat]⟩
  · exact ⟨_, .inl rfl, by rw [dropSlash_of_ne h, List.append_nil]⟩

theorem ofPath?_eq_some_iff : ofPath? path = some (e, entityId) ↔ PathText e entityId path := by
  constructor
  · intro h
    obtain ⟨hfront, hsegments⟩ := Option.ite_none_right_eq_some.1 h
    obtain ⟨bs, rfl⟩ := List.isPrefixOf_iff_prefix.1 hfront
    rw [List.drop_left] at hsegments
    obtain ⟨slash, hslash, hbs⟩ := exists_slash bs
    have hroute := routeText_of_ofSegments? hsegments
    rw [List.intercalate_splitOn] at hroute
    exact ⟨dropSlash bs, slash, hroute, hslash, by rw [← hbs]; rfl⟩
  · rintro ⟨route, slash, hroute, hslash, rfl⟩
    have hdrop : dropSlash (route ++ slash) = route := by
      rcases hslash with rfl | rfl
      · rw [List.append_nil, dropSlash_of_ne hroute.getLast?_ne_slash]
      · exact dropSlash_concat route
    have hfront : pathRoot.isPrefixOf (pathRoot ++ (route ++ slash)) :=
      List.isPrefixOf_iff_prefix.2 (List.prefix_append _ _)
    show ofPath? (pathRoot ++ (route ++ slash)) = _
    rw [ofPath?, if_pos hfront, List.drop_left, hdrop, ofSegments?_splitOn hroute]

/-! ### Targets and lines -/

/-- A target: a path, and the pairs behind the first question mark if there is one. -/
inductive TargetText (path : Bytes) : List (Bytes × Bytes) → Bytes → Prop
  | bare (h : Byte.questionMark ∉ path) : TargetText path [] path
  | query {pairs : List (Bytes × Bytes)} {query : Bytes} (h : Byte.questionMark ∉ path)
      (hquery : QueryText pairs query) :
      TargetText path pairs (path ++ Byte.questionMark :: query)

/-- The word for the method that an endpoint asks for. -/
def Endpoint.methodWord : Endpoint → String
  | filter | group | recommend | suggest => "GET"
  | create | update | likes => "POST"

/-- The line asks for the endpoint, about the account, with these pairs. -/
inductive Asks (e : Endpoint) (entityId : Option Nat) (pairs : List (Bytes × Bytes)) : Bytes → Prop
  | mk {path target version : Bytes} (hpath : PathText e entityId path)
      (htarget : TargetText path pairs target) (hspace : Byte.space ∉ target) :
      Asks e entityId pairs (Utf8.ofString e.methodWord ++ Byte.space :: (target ++ Byte.space ::
        (Utf8.ofString "HTTP/" ++ version)))

theorem targetText_iff {pairs : List (Bytes × Bytes)} {target : Bytes} : TargetText path pairs target ↔
    ∃ query, (target.cut [Byte.questionMark]).getD (target, []) = (path, query) ∧
      pairs = Request.pairs query := by
  constructor
  · intro h
    cases h with
    | bare h => exact ⟨[], by rw [Bytes.cut_byte_eq_none_iff.2 h]; rfl, rfl⟩
    | query h hquery =>
        exact ⟨_, by rw [Bytes.cut_byte_eq_some_iff.2 ⟨rfl, h⟩]; rfl, queryText_iff.1 hquery⟩
  · rintro ⟨query, hcut, rfl⟩
    cases hparts : target.cut [Byte.questionMark] with
    | none =>
        rw [hparts] at hcut
        cases hcut
        exact .bare (Bytes.cut_byte_eq_none_iff.1 hparts)
    | some parts =>
        rw [hparts] at hcut
        cases hcut
        obtain ⟨rfl, h⟩ := Bytes.cut_byte_eq_some_iff.1 hparts
        exact .query h (queryText_iff.2 rfl)

theorem lineParts?_eq_some_iff {line method target version : Bytes} :
    lineParts? line = some (method, target, version) ↔
      line = method ++ Byte.space :: (target ++ Byte.space :: version) ∧
        Byte.space ∉ method ∧ Byte.space ∉ target := by
  constructor
  · intro h
    obtain ⟨⟨method', rest⟩, hmethod, h⟩ := Option.bind_eq_some_iff.1 h
    obtain ⟨⟨target', version'⟩, htarget, h⟩ := Option.bind_eq_some_iff.1 h
    cases h
    obtain ⟨rfl, hspace⟩ := Bytes.cut_byte_eq_some_iff.1 hmethod
    obtain ⟨rfl, hspace'⟩ := Bytes.cut_byte_eq_some_iff.1 htarget
    exact ⟨rfl, hspace, hspace'⟩
  · rintro ⟨rfl, hmethod, htarget⟩
    have hfirst := Bytes.cut_byte_eq_some_iff.2
      ⟨(rfl : method ++ Byte.space :: (target ++ Byte.space :: version) = _), hmethod⟩
    have hsecond := Bytes.cut_byte_eq_some_iff.2
      ⟨(rfl : target ++ Byte.space :: version = _), htarget⟩
    rw [lineParts?, hfirst]
    simp only [Option.bind_eq_bind, Option.bind_some, hsecond]
    rfl

theorem Method.ofToken?_eq_some_iff {bs : Bytes} {method : Method} :
    Method.ofToken? bs = some method ↔ bs = Utf8.ofString method.token :=
  Bytes.find?_word_eq_some_iff fun method => by cases method <;> decide

theorem Endpoint.methodWord_eq (e : Endpoint) : e.methodWord = e.method.token := by
  cases e <;> rfl

variable {r : Request} {line : Bytes} {pairs : List (Bytes × Bytes)}

theorem asks_iff : Asks e entityId pairs line ↔ ∃ method target version path query,
    lineParts? line = some (method, target, version) ∧ Method.ofToken? method = some e.method ∧
      protocol <+: version ∧ (target.cut [Byte.questionMark]).getD (target, []) = (path, query) ∧
      ofPath? path = some (e, entityId) ∧ pairs = Request.pairs query := by
  constructor
  · rintro ⟨hpath, htarget, hspace⟩
    have hmethod : Byte.space ∉ Utf8.ofString e.methodWord := by cases e <;> decide
    obtain ⟨query, hcut, hpairs⟩ := targetText_iff.1 htarget
    exact ⟨_, _, _, _, query, lineParts?_eq_some_iff.2 ⟨rfl, hmethod, hspace⟩,
      Method.ofToken?_eq_some_iff.2 (by rw [e.methodWord_eq]), List.prefix_append _ _, hcut,
      ofPath?_eq_some_iff.2 hpath, hpairs⟩
  · rintro ⟨method, target, version, path, query, hline, hmethod, ⟨tail, rfl⟩, hcut, hpath, hpairs⟩
    obtain ⟨rfl, -, hspace⟩ := lineParts?_eq_some_iff.1 hline
    rw [Method.ofToken?_eq_some_iff.1 hmethod, ← e.methodWord_eq]
    exact .mk (ofPath?_eq_some_iff.1 hpath) (targetText_iff.2 ⟨query, hcut, hpairs⟩) hspace

theorem Asks.unique {e' : Endpoint} {entityId' : Option Nat} {pairs' : List (Bytes × Bytes)}
    (h : Asks e entityId pairs line) (h' : Asks e' entityId' pairs' line) :
    e = e' ∧ entityId = entityId' ∧ pairs = pairs' := by
  obtain ⟨method, target, version, path, query, hline, -, -, hcut, hpath, rfl⟩ := asks_iff.1 h
  obtain ⟨_, _, _, _, _, hline', -, -, hcut', hpath', rfl⟩ := asks_iff.1 h'
  cases hline.symm.trans hline'
  cases hcut.symm.trans hcut'
  cases hpath.symm.trans hpath'
  exact ⟨rfl, rfl, rfl⟩

/-- A line of the grammar is read up to its pairs. -/
theorem readLine_of_asks (h : Asks e entityId pairs line) : readLine r line =
    readPairs { r with
      method := some e.method, endpoint := some e, entityId, params := .ofEndpoint e } pairs := by
  obtain ⟨method, target, version, path, query, hline, hmethod, hversion, hcut, hpath, rfl⟩ :=
    asks_iff.1 h
  rw [readLine, hline]
  simp only [if_pos (List.isPrefixOf_iff_prefix.2 hversion), readTarget, hcut, hpath, hmethod, if_true]

theorem readLine_of_not_asks (h : ∀ e entityId pairs, ¬ Asks e entityId pairs line) :
    ∃ reason s, readLine r line = reject reason s := by
  unfold readLine
  split
  · exact ⟨_, _, rfl⟩
  next method target version hparts =>
  dsimp only
  split
  next hprotocol =>
    unfold readTarget
    dsimp only
    split
    · exact ⟨_, _, rfl⟩
    next e entityId hpath =>
    split
    next hmethod =>
      exact absurd (asks_iff.2 ⟨_, _, _, _, _, hparts, hmethod,
        List.isPrefixOf_iff_prefix.1 hprotocol, rfl, hpath, rfl⟩) (h e entityId _)
    · exact ⟨_, _, rfl⟩
  · exact ⟨_, _, rfl⟩

theorem Asks.weight_le (h : Asks e entityId pairs line) : weight pairs ≤ line.length := by
  obtain ⟨-, htarget, -⟩ := h
  cases htarget with
  | bare => exact Nat.zero_le _
  | query _ hquery =>
      have hle := hquery.weight_le
      simp only [List.length_append, List.length_cons]
      omega

/-- How the reading of a line can end. -/
inductive LineEnds (r : Request) (line : Bytes) : Outcome → Prop
  | accepted {e : Endpoint} {entityId : Option Nat} {pairs : List (Bytes × Bytes)} {v : Values e.table}
      {arena : Arena} {queryId : Option Nat} {unknown : List Bytes} (hasks : Asks e entityId pairs line)
      (hfits : ∀ pair ∈ pairs, PairFits e.parameters pair)
      (hfilled : Filled e.table e.parameters pairs v arena) (hnumber : NumberedBy pairs queryId) :
      LineEnds r line ⟨.accepted, { r with
        method := some e.method, endpoint := some e, entityId, params := e.params v, arena, queryId },
        unknown⟩
  | rejected {reason : Rejection} {s : Request} {unknown : List Bytes}
      (h : ∀ e entityId pairs, Asks e entityId pairs line →
        ¬ ∀ pair ∈ pairs, PairFits e.parameters pair) :
      LineEnds r line ⟨.rejected reason, s.turnAway, unknown⟩
  | overflow {o : Overflow} {s : Request} {unknown : List Bytes}
      (h : r.arena.capacity < line.length) : LineEnds r line ⟨.overflow o, s, unknown⟩

/-- However the reading of a line ends, it ends as it should. -/
theorem ends_readLine (harena : r.arena.contents = []) (hnumber : r.queryId = none) (line : Bytes) :
    LineEnds r line (readLine r line) := by
  have hcursor : r.arena.cursor = 0 := by
    rw [← Arena.length_contents, harena]
    rfl
  by_cases hline : ∃ e entityId pairs, Asks e entityId pairs line
  · obtain ⟨e, entityId, pairs, hasks⟩ := hline
    rw [readLine_of_asks hasks]
    let start : Request := { r with
      method := some e.method, endpoint := some e, entityId, params := .ofEndpoint e }
    have hends : Ends e.params [] pairs start (readPairs start pairs) :=
      ends_readPairs e.sound_table e.wraps_params e.params_empty.symm (.nil harena) (.nil hnumber)
        (hcursor ▸ Nat.zero_le _)
    show LineEnds r line (readPairs start pairs)
    generalize readPairs start pairs = outcome at hends
    cases hends with
    | accepted hfits hfilled hnumbered =>
        rw [e.parameters_table] at hfits hfilled
        exact .accepted hasks hfits hfilled hnumbered
    | rejected hfits =>
        rw [e.parameters_table] at hfits
        refine .rejected fun other entityId' pairs' hother => ?_
        obtain ⟨rfl, -, rfl⟩ := hasks.unique hother
        exact hfits
    | overflow hfull =>
        have hle := hasks.weight_le
        have hstart : start.arena.cursor = 0 := hcursor
        refine .overflow ?_
        show start.arena.capacity < line.length
        omega
  · have hnot : ∀ e entityId pairs, ¬ Asks e entityId pairs line := fun e entityId pairs h =>
      hline ⟨e, entityId, pairs, h⟩
    obtain ⟨reason, s, hreject⟩ := readLine_of_not_asks (r := r) hnot
    rw [hreject]
    exact .rejected fun e entityId pairs h => absurd h (hnot e entityId pairs)

end Intake.Request
