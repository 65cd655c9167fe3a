import Intake.Proofs.Checked.Parameter
import Intake.Proofs.Request.Lengths
import Intake.Proofs.Request.Run
import Mathlib.Data.List.Induction
import Mathlib.Data.Nat.Digits.Defs

/-!
# The numbers of a request

Every number of a request is read by one of two readers, for numbers without a sign and for numbers that
may have one. A reader gives the number that the digits stand for in base ten, or nothing: no number is
wrapped or cut off, however many digits there are.

What a request holds is then a matter of where its numbers come from. Whether a head is understood, turned
away or too long for the arena, a number that it leaves behind is spelled where a number of its kind may
stand: in a header line, in the path, or as the value of a pair.
-/

namespace Intake

namespace Decimal

/-! ### Digits -/

/-- A row of digits and nothing else. -/
def IsNumeral (bs : Bytes) : Prop := bs ≠ [] ∧ ∀ b ∈ bs, Byte.isDigit b

/-- What digits stand for in base ten, where the last one counts ones. -/
def positional (digits : Bytes) : Nat :=
  Nat.ofDigits 10 (digits.map fun digit => digit.toNat - Byte.zero.toNat).reverse

variable {n : Nat} {bs : Bytes}

theorem positional_append_singleton (digits : Bytes) (digit : UInt8) :
    positional (digits ++ [digit]) = shift (positional digits) digit := by
  rw [positional, List.map_append, List.map_singleton, List.reverse_append, List.reverse_singleton,
    List.singleton_append, Nat.ofDigits_cons, Nat.add_comm, Nat.mul_comm]
  rfl

/-- Multiplying by ten and adding the next digit comes to the sum over all places. -/
theorem value_eq_positional (digits : Bytes) : value digits = positional digits := by
  induction digits using List.reverseRecOn with
  | nil => rfl
  | append_singleton digits digit ih =>
      rw [value, List.foldl_append, ← value, ih, positional_append_singleton]
      rfl

theorem spells_iff : Spells n bs ↔ IsNumeral bs ∧ positional bs = n := by
  rw [Spells, value_eq_positional, IsNumeral, and_assoc]

theorem spellsSigned_iff {v : Int} : SpellsSigned v bs ↔
    IsNumeral bs ∧ (positional bs : Int) = v ∨
      ∃ digits, bs = Byte.minus :: digits ∧ IsNumeral digits ∧ -(positional digits : Int) = v := by
  constructor
  · intro h
    cases h with
    | plain h =>
        obtain ⟨hnumeral, rfl⟩ := spells_iff.1 h
        exact .inl ⟨hnumeral, rfl⟩
    | minus h =>
        obtain ⟨hnumeral, rfl⟩ := spells_iff.1 h
        exact .inr ⟨_, rfl, hnumeral, rfl⟩
  · rintro (⟨hnumeral, rfl⟩ | ⟨digits, rfl, hnumeral, rfl⟩)
    · exact .plain (spells_iff.2 ⟨hnumeral, rfl⟩)
    · exact .minus (spells_iff.2 ⟨hnumeral, rfl⟩)

theorem spells_zeros (k : Nat) (hne : bs ≠ []) :
    Spells n (List.replicate k Byte.zero ++ bs) ↔ Spells n bs := by
  induction k with
  | zero => rfl
  | succ k ih =>
      rw [← ih, List.replicate_succ, List.cons_append, Spells, Spells, List.forall_mem_cons]
      have hzero : Byte.isDigit Byte.zero := by decide
      have hrest : List.replicate k Byte.zero ++ bs ≠ [] := List.append_ne_nil_of_right_ne_nil _ hne
      exact ⟨fun ⟨_, hdigits, hvalue⟩ => ⟨hrest, hdigits.2, hvalue⟩,
        fun ⟨_, hdigits, hvalue⟩ => ⟨List.cons_ne_nil _ _, ⟨hzero, hdigits⟩, hvalue⟩⟩

theorem unsigned?_zeros (k : Nat) (b : UInt8) (bs : Bytes) :
    unsigned? (List.replicate k Byte.zero ++ b :: bs) = unsigned? (b :: bs) := by
  ext n
  rw [unsigned?_eq_some_iff, unsigned?_eq_some_iff, spells_zeros k (List.cons_ne_nil _ _)]

end Decimal

namespace Request

open Bytes (Leads LaterLine lineEnd)

/-! ### Values -/

/-- The value is what the raw value spells, if it is a number of this kind. -/
def ParameterKind.SpelledBy : (kind : ParameterKind) → Bytes → kind.Value → Prop
  | signed, raw, (v : Int) => signed.Means raw v
  | count, raw, (n : Nat) => count.Means raw n
  | code, raw, (n : Nat) => code.Means raw n
  | limit, raw, (n : Nat) => limit.Means raw n
  | _, _, _ => True

theorem ParameterKind.spelledBy_of_means {kind : ParameterKind} {raw : Bytes} {arena : Arena}
    {value : kind.Value} {content : kind.Content} (hmeans : kind.Means raw content)
    (hholds : kind.Holds arena value content) : kind.SpelledBy raw value := by
  cases kind with
  | signed | count | code | limit =>
      cases hholds
      exact hmeans
  | text | sex | status | flag | order | keys => trivial

theorem Reading.ofOption_eq_accepted_iff {α : Type} {read : Option α} {value : α} {arena : Arena} :
    Reading.ofOption read arena = .accepted value arena ↔ read = some value := by
  cases read with
  | none =>
      constructor
      · intro h
        cases h
      · intro h
        cases h
  | some other =>
      rw [Option.some.injEq]
      constructor
      · intro h
        cases h
        rfl
      · rintro rfl
        rfl

/-- A number is accepted just when the raw value spells it, and leaves nothing in the arena. -/
theorem ParameterKind.read_number_iff {kind : ParameterKind}
    (hkind : kind ∈ [signed, count, code, limit]) {raw : Bytes} {arena : Arena} {value : kind.Value} :
    kind.read raw arena = .accepted value arena ↔ kind.SpelledBy raw value := by
  cases kind with
  | signed => exact Reading.ofOption_eq_accepted_iff.trans Decimal.signed?_eq_some_iff
  | count => exact Reading.ofOption_eq_accepted_iff.trans Decimal.unsigned?_eq_some_iff
  | code => exact Reading.ofOption_eq_accepted_iff.trans (Decimal.plain?_eq_some_iff (by decide))
  | limit => exact Reading.ofOption_eq_accepted_iff.trans filter_limit
  | text | sex | status | flag | order | keys => exact absurd hkind (by decide)

section Values

variable {t : Table} {v : Values t} {pairs : List (Bytes × Bytes)}

/-- Each field has its default or was set by one of the pairs. -/
def Values.SpelledBy (pairs : List (Bytes × Bytes)) (v : Values t) : Prop :=
  ∀ field, v.value field = (t.kind field).default ∨
    ∃ key raw, t.field key = field ∧ (t.word key, raw) ∈ pairs ∧
      (t.kind field).SpelledBy raw (v.value field)

theorem Values.SpelledBy.empty (pairs : List (Bytes × Bytes)) : ({} : Values t).SpelledBy pairs :=
  fun _ => .inl rfl

theorem Values.SpelledBy.set (h : v.SpelledBy pairs) {key : t.Key} {raw : Bytes}
    (hmem : (t.word key, raw) ∈ pairs) {value : t.Value (t.field key)}
    (hvalue : (t.kind (t.field key)).SpelledBy raw value) : (v.set key value).SpelledBy pairs := by
  intro field
  by_cases hfield : t.field key = field
  · subst hfield
    rw [value_set_self]
    exact .inr ⟨key, raw, rfl, hmem, hvalue⟩
  · rw [value_set_of_ne v value hfield]
    exact h field

end Values

def Params.SpelledBy (pairs : List (Bytes × Bytes)) : Params → Prop
  | none => True
  | filter values => values.SpelledBy pairs
  | selection values => values.SpelledBy pairs

theorem Endpoint.spelledBy_params {e : Endpoint} {v : Values e.table} {pairs : List (Bytes × Bytes)}
    (h : v.SpelledBy pairs) : (e.params v).SpelledBy pairs := by
  cases e with
  | filter | group | recommend | suggest => exact h
  | create | update | likes => trivial

/-! ### Lines -/

/-- The line has a target of this path and these pairs, whatever its method and its version are. -/
def Targets (path : Bytes) (pairs : List (Bytes × Bytes)) (line : Bytes) : Prop :=
  ∃ method target version, line = method ++ Byte.space :: (target ++ Byte.space :: version) ∧
    Byte.space ∉ method ∧ Byte.space ∉ target ∧ TargetText path pairs target

/-- The numbers of a target are those of this path and these pairs. -/
structure GivenBy (path : Bytes) (pairs : List (Bytes × Bytes)) (r : Request) : Prop where
  entityId : ∀ id, r.entityId = some id → ∃ e, PathText e (some id) path
  queryId : ∀ n, r.queryId = some n →
    ∃ raw, (queryIdKey, raw) ∈ pairs ∧ Decimal.Spells n raw ∧ n < Decimal.unsignedBound
  params : r.params.SpelledBy pairs

/-- Nothing of a target is left. -/
structure Untargeted (r : Request) : Prop where
  entityId : r.entityId = none
  queryId : r.queryId = none
  params : r.params = .none

variable {r : Request} {path : Bytes} {pairs : List (Bytes × Bytes)}

theorem GivenBy.turnAway (h : GivenBy path pairs r) : GivenBy path pairs r.turnAway :=
  ⟨h.entityId, h.queryId, trivial⟩

theorem Untargeted.turnAway (h : Untargeted r) : Untargeted r.turnAway := ⟨h.entityId, h.queryId, rfl⟩

/-- However the reading of pairs ends, each number that it leaves behind comes from one of them. -/
theorem givenBy_readPairs {e : Endpoint} {v : Values e.table} (h : GivenBy path pairs r)
    (hparams : r.params = e.params v) (hv : v.SpelledBy pairs)
    (hroom : r.arena.cursor ≤ r.arena.capacity) {rest : List (Bytes × Bytes)}
    (hrest : ∀ pair ∈ rest, pair ∈ pairs) : GivenBy path pairs (readPairs r rest).request := by
  -- The row that is still to be read gets shorter, and `pairs` stays the whole row that it belongs to.
  fun_induction readPairs r rest generalizing v with
  | case1 r => exact h
  | case2 r raw rest id hid ih =>
      obtain ⟨hmem, hrest⟩ := List.forall_mem_cons.1 hrest
      refine ih ⟨h.entityId, fun n hn => ?_, h.params⟩ hparams hv hroom hrest
      cases hn
      exact ⟨raw, hmem, Decimal.unsigned?_eq_some_iff.1 hid⟩
  | case3 r => exact h.turnAway
  | case4 r key raw rest hkey hread outcome =>
      rename_i ih
      exact ih h hparams hv hroom (List.forall_mem_cons.1 hrest).2
  | case5 r key raw rest hkey params arena hread ih =>
      obtain ⟨hmem, hlater⟩ := List.forall_mem_cons.1 hrest
      rw [hparams] at hread
      obtain ⟨known, rfl, hanswer⟩ := keyRead_of_read? e.sound_table e.wraps_params hroom hread
      cases hanswer with
      | accepted hmeans hholds hcontents hcapacity hfits =>
          have hset := hv.set hmem (ParameterKind.spelledBy_of_means hmeans hholds)
          exact ih ⟨h.entityId, h.queryId, Endpoint.spelledBy_params hset⟩ rfl hset hfits hlater
  | case6 r => exact h.turnAway
  | case7 r => exact ⟨h.entityId, h.queryId, h.params⟩

theorem Untargeted.givenBy (h : Untargeted r) {e : Endpoint} {entityId : Option Nat}
    (hpath : PathText e entityId path) :
    GivenBy path pairs { r with endpoint := some e, entityId, params := .ofEndpoint e } := by
  refine ⟨fun id hid => ?_, fun n hn => ?_, ?_⟩
  · cases hid
    exact ⟨e, hpath⟩
  · cases h.queryId.symm.trans hn
  · rw [← e.params_empty]
    exact Endpoint.spelledBy_params (.empty pairs)

theorem givenBy_readTarget (h : Untargeted r) (hroom : r.arena.Fits) (target : Bytes) :
    Untargeted (readTarget r target).request ∨
      ∃ path pairs, TargetText path pairs target ∧ GivenBy path pairs (readTarget r target).request := by
  unfold readTarget
  dsimp only
  split
  · exact .inl h.turnAway
  next e entityId hpath =>
    split
    next =>
      refine .inr ⟨_, _, targetText_iff.2 ⟨_, rfl, rfl⟩, ?_⟩
      exact givenBy_readPairs (h.givenBy (ofPath?_eq_some_iff.1 hpath)) e.params_empty.symm
        (.empty _) hroom fun _ => id
    · exact .inl h.turnAway

theorem givenBy_readLine (h : Untargeted r) (hroom : r.arena.Fits) (line : Bytes) :
    Untargeted (readLine r line).request ∨
      ∃ path pairs, Targets path pairs line ∧ GivenBy path pairs (readLine r line).request := by
  unfold readLine
  split
  · exact .inl h.turnAway
  next method target version hparts =>
    dsimp only
    have hstart : Untargeted { r with method := Method.ofToken? method } :=
      ⟨h.entityId, h.queryId, h.params⟩
    split
    · obtain ⟨hline, hmethod, htarget⟩ := lineParts?_eq_some_iff.1 hparts
      refine (givenBy_readTarget hstart hroom target).imp_right ?_
      rintro ⟨path, pairs, htext, hgiven⟩
      exact ⟨path, pairs, ⟨method, target, version, hline, hmethod, htarget, htext⟩, hgiven⟩
    · exact .inl hstart.turnAway

/-! ### Heads -/

/-- A content length is the one that was found before or is given by one of the lines. -/
theorem gives_readHeaders (offset length : Nat) (lines : List Bytes) :
    (readHeaders offset length lines).1 = length ∨
      ∃ line ∈ lines, GivesLength (readHeaders offset length lines).1 line := by
  induction lines generalizing offset length with
  | nil => exact .inl rfl
  | cons line rest ih =>
      by_cases hmalformed : MalformedLength line
      · obtain ⟨name, value, hline, hvalue⟩ := hmalformed
        rw [readHeaders_malformed hline hvalue]
        exact .inl rfl
      · obtain ⟨n, hn, hread⟩ := exists_readHeaders_cons offset length rest hmalformed
        rw [hread]
        rcases ih _ n with hsame | ⟨other, hmem, hother⟩
        · rw [hsame]
          exact hn.imp_right fun hgiven => ⟨line, List.mem_cons_self, hgiven⟩
        · exact .inr ⟨other, List.mem_cons_of_mem _ hmem, hother⟩

/-- Each number of the request is spelled in the head, unless there is none. -/
structure SpelledBy (head : Bytes) (r : Request) : Prop where
  contentLength : r.contentLength = 0 ∨
    ∃ line, LaterLine head line ∧ GivesLength r.contentLength line
  target : Untargeted r ∨ ∃ line path pairs,
    Leads line lineEnd (head ++ terminator) ∧ Targets path pairs line ∧ GivenBy path pairs r

theorem spelledBy_readHead (r : Request) (head : Bytes) : SpelledBy head (readHead r head).request := by
  have hlength :=
    gives_readHeaders ((headParts head).1.length + lineEnd.length) 0 (headParts head).2.lines
  have hlater {n : Nat} (h : ∃ line ∈ (headParts head).2.lines, GivesLength n line) :
      ∃ line, LaterLine head line ∧ GivesLength n line := by
    obtain ⟨line, hmem, name, value, hline, hvalue⟩ := h
    have hcut := (lengthLine_iff.1 hline).1
    exact ⟨line, (mem_lines_headParts_iff hcut).1 hmem, name, value, hline, hvalue⟩
  have hparts : (head.cut lineEnd).getD (head, []) = headParts head := rfl
  simp only [readHead, hparts]
  generalize readHeaders _ 0 (headParts head).2.lines = headers at hlength ⊢
  obtain ⟨n, fault⟩ := headers
  have hstart : Untargeted { r.reset with contentLength := n } := ⟨rfl, rfl, rfl⟩
  have hline := givenBy_readLine hstart (Arena.fits_empty rfl) (headParts head).1
  have hsame := contentLength_readLine { r.reset with contentLength := n } (headParts head).1
  generalize readLine _ (headParts head).1 = outcome at hline hsame ⊢
  cases fault with
  | some fault => exact ⟨hlength.imp_right hlater, .inl hstart⟩
  | none =>
      have hspelled : SpelledBy head outcome.request := by
        constructor
        · rw [hsame]
          exact hlength.imp_right hlater
        · refine hline.imp_right ?_
          rintro ⟨path, pairs, htargets, hgiven⟩
          exact ⟨_, path, pairs, leads_line List.prefix_rfl, htargets, hgiven⟩
      dsimp only
      split <;> exact hspelled

/-! ### Runs -/

/-- A call that finds no head leaves the numbers of an earlier one, and a reset leaves none. -/
theorem spelledBy_run (options : Options) (actions : List Action) :
    (run options actions).contentLength = 0 ∧ Untargeted (run options actions) ∨
      ∃ decoder input head, Action.decode decoder input ∈ actions ∧ head ++ terminator <+: input ∧
        SpelledBy head (run options actions) := by
  induction actions using List.reverseRecOn with
  | nil => exact .inl ⟨rfl, rfl, rfl, rfl⟩
  | append_singleton actions action ih =>
      have hstep : run options (actions ++ [action]) = (run options actions).act action := by
        rw [run, List.foldl_append]
        rfl
      rw [hstep]
      generalize run options actions = r at ih ⊢
      cases action with
      | reset => exact .inl ⟨rfl, rfl, rfl, rfl⟩
      | decode decoder input =>
          rcases incomplete_or_exists_head decoder r input with
            ⟨missing, hmissing⟩ | ⟨head, hhead, hanswer⟩
          · rw [act, request_of_incomplete hmissing]
            refine ih.imp_right ?_
            rintro ⟨earlier, other, head, hmem, hspelled⟩
            exact ⟨earlier, other, head, List.mem_append_left _ hmem, hspelled⟩
          · have hmem : Action.decode decoder input ∈ actions ++ [.decode decoder input] :=
              List.mem_append_right _ (List.mem_singleton_self _)
            refine .inr ⟨decoder, input, head, hmem, hhead, ?_⟩
            rw [act, hanswer]
            exact spelledBy_readHead r head

/-- **Numbers are read exactly.** A text is read as a number without a sign just when it is a row of
digits, and as one with a sign just when it is such a row or one behind a minus sign, and what the digits
stand for is in range; then this is the number. Zeros in front change nothing, and the readers in machine
words never trap and give the same. So a parameter that is a number is accepted just when its value spells
one of its kind. After any row of calls, failed ones among them, each number in a request is missing or a
default, or it is spelled in the head of one of the inputs. -/
theorem numbers_exact :
    (∀ bs n, Decimal.unsigned? bs = some n ↔
      Decimal.IsNumeral bs ∧ Decimal.positional bs = n ∧ n < 0x100000000) ∧
    (∀ bs v, Decimal.signed? bs = some v ↔ -0x80000000 ≤ v ∧ v < 0x80000000 ∧
      (Decimal.IsNumeral bs ∧ (Decimal.positional bs : Int) = v ∨
        ∃ digits, bs = Byte.minus :: digits ∧ Decimal.IsNumeral digits ∧
          -(Decimal.positional digits : Int) = v)) ∧
    (∀ k b bs, Decimal.unsigned? (List.replicate k Byte.zero ++ b :: bs) = Decimal.unsigned? (b :: bs)) ∧
    (∀ bs, Checked.unsigned bs = .ok (Decimal.unsigned? bs) ∧
      Checked.signed bs = .ok (Decimal.signed? bs)) ∧
    (∀ kind ∈ [ParameterKind.signed, .count, .code, .limit], ∀ raw arena value,
      kind.read raw arena = .accepted value arena ↔ kind.SpelledBy raw value) ∧
    ∀ options actions,
      (run options actions).contentLength = 0 ∧ Untargeted (run options actions) ∨
        ∃ decoder input head, Action.decode decoder input ∈ actions ∧ head ++ terminator <+: input ∧
          SpelledBy head (run options actions) := by
  refine ⟨fun bs n => ?_, fun bs v => ?_, Decimal.unsigned?_zeros,
    fun bs => ⟨Checked.unsigned_eq bs, Checked.signed_eq bs⟩,
    fun _ hkind _ _ _ => ParameterKind.read_number_iff hkind, spelledBy_run⟩
  · rw [Decimal.unsigned?_eq_some_iff, Decimal.spells_iff, and_assoc]
  · rw [Decimal.signed?_eq_some_iff, Decimal.spellsSigned_iff, and_comm, and_assoc]
    rfl

/-- The ends of both ranges, and a request with zeros in front of its numbers. -/
theorem numbers_exact_ends :
    let input := Utf8.ofString "GET /accounts/07/suggest?query_id=0042&limit=5 HTTP/1.1" ++ terminator
    let r := run {} [.decode {} input]
    Decimal.unsigned? (Utf8.ofString "0004294967295") = some 4294967295 ∧
      Decimal.unsigned? (Utf8.ofString "4294967296") = none ∧
      Decimal.signed? (Utf8.ofString "-2147483648") = some (-2147483648) ∧
      Decimal.signed? (Utf8.ofString "2147483648") = none ∧
      ParameterKind.code.read (Utf8.ofString "065535") r.arena = .accepted (65535 : Nat) r.arena ∧
      r.entityId = some 7 ∧ r.queryId = some 42 ∧
      ∃ head, head ++ terminator <+: input ∧ SpelledBy head r := by
  obtain ⟨hunsigned, hsigned, -, -, hread, hrun⟩ := numbers_exact
  intro input r
  have hids : r.entityId = some 7 ∧ r.queryId = some 42 := by decide +kernel
  have hcode : ParameterKind.code.SpelledBy (Utf8.ofString "065535") (65535 : Nat) :=
    ⟨⟨by decide, List.all_eq_true.1 (by decide), rfl⟩, by decide⟩
  refine ⟨(hunsigned _ _).2 ?_, ?_, (hsigned _ _).2 ?_, ?_, (hread _ (by decide) _ _ _).2 hcode,
    hids.1, hids.2, ?_⟩
  · exact ⟨⟨by decide, List.all_eq_true.1 (by decide)⟩, rfl, by decide⟩
  · refine Option.eq_none_iff_forall_ne_some.2 fun n hn => ?_
    obtain ⟨-, rfl, hlt⟩ := (hunsigned _ _).1 hn
    exact absurd hlt (by decide)
  · exact ⟨by decide, by decide, .inr ⟨_, rfl, ⟨by decide, List.all_eq_true.1 (by decide)⟩, rfl⟩⟩
  · refine Option.eq_none_iff_forall_ne_some.2 fun v hv => ?_
    obtain ⟨-, hlt, ⟨-, rfl⟩ | ⟨digits, hminus, -, -⟩⟩ := (hsigned _ _).1 hv
    · exact absurd hlt (by decide)
    · exact absurd (List.cons.inj hminus).1 (by decide)
  · rcases hrun {} [.decode {} input] with ⟨-, hnone⟩ | ⟨_, _, head, hmem, hhead, hspelled⟩
    · cases hids.2.symm.trans hnone.queryId
    · cases List.mem_singleton.1 hmem
      exact ⟨head, hhead, hspelled⟩

end Request

end Intake
