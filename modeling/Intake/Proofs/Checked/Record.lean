import Intake.Proofs.Checked.Machine
import Intake.Proofs.Checked.Quoted
import Intake.Proofs.Checked.Skip
import Intake.Proofs.Account.Layout

/-!
# Records by position

The decoder of records as a machine runs it. A text is written to the arena of the account as it is read,
also one that is only looked at, which is taken back afterwards. An interest is asserted to start at the
last fencepost: nothing but interests is written while they are read, so each starts where the one
before ended.
-/

namespace Intake.Checked

open Record (Field Scan)
open Record.Scan (PartialLike)

namespace Machine

variable (options : Options) (input : Bytes)

/-- Reads a text into the account's arena. -/
def text : Machine Account Span := fun account p => do
  match ← expect Byte.quote input p with
  | .error why => return .stop why account
  | .ok (_, start) =>
    match ← quoted options.combineSurrogates input account.arena start with
    | (.error why, arena) => return .stop why { account with arena }
    | (.ok (span, stop), arena) => return .ok span { account with arena } stop

/-- Reads a text only to look at it. What was written is taken back. -/
def scratch : Machine Account Bytes := do
  let span ← text options input
  let account ← get
  modify fun account => { account with arena := account.arena.truncate span.offset }
  return account.arena.view span

/-- Adds an interest, which is asserted to start at the last fencepost. -/
def pushInterest (span : Span) (account : Account) : Checked Account := do
  let posts := if account.interestPosts.isEmpty then #[span.offset] else account.interestPosts
  require .assertion (posts.back? = some span.offset)
  return { account with interestPosts := posts.push (← sum span.offset span.length) }

def sex : Machine Account Unit := do
  let offset ← position
  match Sex.ofCode? (← scratch options input) with
  | some sex => modify ({ · with sex := some sex })
  | none => fail (.invalidSex offset)

def status : Machine Account Unit := do
  let offset ← position
  match Status.ofLiteral? (← scratch options input) with
  | some status => modify ({ · with status := some status })
  | none => fail (.invalidStatus offset)

def skipped {σ : Type} : Machine σ Unit := read (skipValue options.maxNesting input)

def premiumMember (key : Bytes) : Machine Premium Unit := do
  if key = Scan.startKey then
    let start ← read (timestamp input)
    modify ({ · with start })
  else if key = Scan.finishKey then
    let finish ← read (timestamp input)
    modify ({ · with finish })
  else skipped options input

def premium : Machine Account Unit := do
  let (_, premium) ← withState .absent (members input (premiumMember options input))
  modify ({ · with premium := if premium.isPresent then premium else .absent })

def interest : Machine Account Unit := do
  let span ← text options input
  update (pushInterest span)

def interests : Machine Account Unit := do
  modify (·.clearInterests)
  elements input (interest options input)

def likeMember (key : Bytes) : Machine PartialLike Unit := do
  if key = Scan.likeIdKey then
    let id ← read (identifier input)
    modify ({ · with id := some id })
  else if key = Scan.likeTimestampKey then
    let timestamp ← read (timestamp input)
    modify ({ · with timestamp := some timestamp })
  else skipped options input

def like : Machine Account Unit := do
  let offset ← position
  let (_, found) ← withState {} (members input (likeMember options input))
  match found.id, found.timestamp with
  | some toId, some timestamp => modify (·.addLike { toId, timestamp })
  | _, _ => fail (.incompleteLike offset)

def likes : Machine Account Unit := do
  modify (·.clearLikes)
  elements input (like options input)

def value : Field → Machine Account Unit
  | .id => do
    let id ← read (identifier input)
    modify ({ · with id })
  | .sex => sex options input
  | .status => status options input
  | .text field => do
    let span ← text options input
    modify (·.setText field span)
  | .birth => do
    let birth ← read (timestamp input)
    modify ({ · with birth })
  | .joined => do
    let joined ← read (timestamp input)
    modify ({ · with joined })
  | .premium => premium options input
  | .interests => interests options input
  | .likes => likes options input

def member (key : Bytes) : Machine Account Unit := do
  skipSpace input
  match Field.ofName? key with
  | some field => value options input field
  | none => skipped options input

def record : Machine Account Unit :=
  members input (member options input)

end Machine

/-- Decodes the record at the start of `input` into `account`, which is emptied first. -/
def decodeRecord (options : Options) (account : Account) (input : Bytes) :
    Checked Record.Decoded := do
  let empty := { account.clear with arena := account.arena.reset }
  match ← Machine.record options input empty 0 with
  | .ok _ account stop => return ⟨.ok (.complete stop), account⟩
  | .stop (.incomplete missing) account => return ⟨.ok (.incomplete missing), account⟩
  | .stop (.fault fault) account => return ⟨.error fault, account⟩

/-! ### Texts -/

/-- What was written to an account's arena fits. -/
def Roomy (account : Account) : Prop := account.arena.Fits

/-- The last fencepost is where the next interest will be written. -/
def Fenced (account : Account) : Prop :=
  Roomy account ∧ (account.interestPosts.toList = [] ∨
    account.interestPosts.toList.getLast? = some account.arena.cursor)

section Text

variable (options : Options) {input : Bytes}

theorem text_code (account : Account) {p : Nat} (hp : p ≤ input.length) (hfits : Roomy account) :
    Machine.text options input account p =
      .ok (outcome ((Scan.text options).run account (.within input p))) := by
  rw [Machine.text, Scan.text_run]
  unfold Record.quoted
  cases hexpect : Record.expect Byte.quote (.within input p) with
  | error why =>
      rw [(runs_expect _ input).error hp hexpect]
      rfl
  | ok opened =>
      obtain ⟨u, d⟩ := opened
      obtain ⟨hcode, hd, -⟩ := (runs_expect _ input).ok hp (forward_expect _) hexpect
      rw [hcode, ok_bind]
      dsimp only
      rw [quoted_eq _ _ hfits, ok_bind, ← hd]
      cases Record.Quoted.decode options.combineSurrogates account.arena d <;> rfl

theorem follows_text_modify {f : Span → Account → Account} (hf : ∀ span a, (f span a).arena = a.arena) :
    Follows input Roomy (Machine.text options input >>= fun span => Machine.modify (f span))
      (Scan.text options >>= fun span => Scan.modify (f span)) where
  code account p hp hfits := by
    change Machine.bind _ _ account p = _
    rw [Machine.bind, text_code options account hp hfits, Scan.run_bind, ok_bind]
    cases (Scan.text options).run account (.within input p) <;> rfl
  keeps := Scan.keeps_text_modify options fun a arena pieces hfits hext => by
    rw [Roomy, hf]
    exact Arena.Fits.extendAll hfits hext

theorem follows_scratch :
    Follows input Roomy (Machine.scratch options input) (Scan.scratch options) where
  code account p hp hfits := by
    change Machine.bind _ _ account p = _
    rw [Machine.bind, text_code options account hp hfits, Scan.text_run, Scan.scratch_run, ok_bind]
    cases hquoted : Record.quoted options.combineSurrogates account.arena (.within input p) with
    | error why => rfl
    | ok read =>
        obtain ⟨⟨span, arena⟩, d⟩ := read
        obtain ⟨rfl, pieces, hext⟩ := Record.extendAll_of_quoted hquoted
        have hback := (Arena.extends_extendAll hext).truncate
        show Except.ok (Outcome.ok _ { account with arena := arena.truncate account.arena.cursor } _) = _
        rw [hback]
        rfl
  keeps := Scan.keeps_scratch options

theorem stop_finish {arena written : Arena} {pieces : List Bytes}
    (h : arena.extendAll pieces = .ok written) : (written.finish arena.cursor).stop = written.cursor :=
  Span.stop_between (Arena.extends_extendAll h).cursor_le

theorem pushInterest_eq {account : Account} {span : Span} (hstop : span.stop < Decimal.unsignedBound)
    (hlast : account.interestPosts.toList = [] ∨
      account.interestPosts.toList.getLast? = some span.offset) :
    Machine.pushInterest span account = .ok (account.pushInterest span) := by
  have hpost : (if account.interestPosts.isEmpty then #[span.offset]
      else account.interestPosts).back? = some span.offset := by
    rcases hlast with hnil | hlast
    · rw [Array.toList_eq_nil_iff.1 hnil]
      rfl
    · rw [Array.getLast?_toList] at hlast
      split
      · rfl
      · exact hlast
  unfold Machine.pushInterest
  dsimp only
  rw [require_of hpost, ok_bind, sum_of_lt hstop]
  rfl

theorem follows_interest : Follows input Fenced (Machine.interest options input)
    (Scan.text options >>= fun span => Scan.modify (·.pushInterest span)) where
  code account p hp hfenced := by
    change Machine.bind _ _ account p = _
    rw [Machine.bind, text_code options account hp hfenced.1, Scan.run_bind, ok_bind, Scan.text_run]
    cases hquoted : Record.quoted options.combineSurrogates account.arena (.within input p) with
    | error why => rfl
    | ok read =>
        obtain ⟨⟨span, arena⟩, d⟩ := read
        obtain ⟨rfl, pieces, hext⟩ := Record.extendAll_of_quoted hquoted
        have hfits : arena.Fits := Arena.Fits.extendAll hfenced.1 hext
        have hstop : (arena.finish account.arena.cursor).stop < Decimal.unsignedBound := by
          rw [stop_finish hext]
          exact Nat.lt_succ_of_lt hfits.lt_absentOffset
        have hpush : Machine.pushInterest _ { account with arena } = _ :=
          pushInterest_eq hstop hfenced.2
        dsimp only [outcome]
        rw [Machine.update, hpush]
        rfl
  keeps := Scan.keeps_text_modify options fun account arena pieces hfenced hext => by
    refine ⟨Arena.Fits.extendAll hfenced.1 hext, .inr ?_⟩
    rw [Account.toList_pushInterest, List.getLast?_concat, stop_finish hext]
    rfl

end Text

/-! ### Members -/

section Members

variable (options : Options) (input : Bytes)

theorem follows_identifier {σ : Type} {I : σ → Prop} :
    Follows input I (Machine.read (identifier input)) Scan.identifier :=
  follows_read (runs_identifier input) _

theorem follows_timestamp {σ : Type} {I : σ → Prop} :
    Follows input I (Machine.read (timestamp input)) Scan.timestamp :=
  follows_read (runs_timestamp input) _

theorem follows_skipped {σ : Type} {I : σ → Prop} :
    Follows input I (Machine.skipped options input) (Scan.skipValue options) :=
  follows_read (runs_skipValue options.maxNesting input) _

theorem follows_premiumMember (key : Bytes) :
    Follows input (fun _ => True) (Machine.premiumMember options input key)
      (Scan.premiumMember options key) := by
  unfold Machine.premiumMember Scan.premiumMember
  split
  · exact follows_bind (follows_timestamp input) fun _ => follows_modify fun _ _ => trivial
  split
  · exact follows_bind (follows_timestamp input) fun _ => follows_modify fun _ _ => trivial
  · exact follows_skipped options input

theorem follows_likeMember (key : Bytes) :
    Follows input (fun _ => True) (Machine.likeMember options input key)
      (Scan.likeMember options key) := by
  unfold Machine.likeMember Scan.likeMember
  split
  · exact follows_bind (follows_identifier input) fun _ => follows_modify fun _ _ => trivial
  split
  · exact follows_bind (follows_timestamp input) fun _ => follows_modify fun _ _ => trivial
  · exact follows_skipped options input

theorem follows_modify_roomy {f : Account → Account} (hf : ∀ a, (f a).arena = a.arena) :
    Follows input Roomy (Machine.modify f) (Scan.modify f) :=
  follows_modify fun a h => by rwa [Roomy, hf]

theorem follows_sex : Follows input Roomy (Machine.sex options input) (Scan.sex options) := by
  refine follows_bind follows_position fun offset => follows_bind (follows_scratch options) fun bs => ?_
  cases Sex.ofCode? bs with
  | none => exact follows_fail _
  | some sex => exact follows_modify_roomy input fun _ => rfl

theorem follows_status : Follows input Roomy (Machine.status options input) (Scan.status options) := by
  refine follows_bind follows_position fun offset => follows_bind (follows_scratch options) fun bs => ?_
  cases Status.ofLiteral? bs with
  | none => exact follows_fail _
  | some status => exact follows_modify_roomy input fun _ => rfl

theorem follows_premium :
    Follows input Roomy (Machine.premium options input) (Scan.premium options) :=
  follows_bind
    (follows_withState trivial (follows_members fun key => follows_premiumMember options input key))
    fun _ => follows_modify_roomy input fun _ => rfl

theorem follows_like : Follows input Roomy (Machine.like options input) (Scan.like options) := by
  refine follows_bind follows_position fun offset => follows_bind
    (follows_withState trivial (follows_members fun key => follows_likeMember options input key))
    fun found => ?_
  obtain ⟨_, id, timestamp⟩ := found
  cases id with
  | none => exact follows_fail _
  | some id =>
      cases timestamp with
      | none => exact follows_fail _
      | some timestamp => exact follows_modify_roomy input fun _ => rfl

theorem follows_interests :
    Follows input Roomy (Machine.interests options input) (Scan.interests options) :=
  follows_modify_bind (fun _ hfits => ⟨hfits, .inl rfl⟩)
    (follows_elements (follows_interest options)) fun _ h => h.1

theorem follows_value (field : Field) :
    Follows input Roomy (Machine.value options input field) (Scan.value options field) := by
  cases field with
  | id => exact follows_bind (follows_identifier input) fun _ => follows_modify_roomy input fun _ => rfl
  | sex => exact follows_sex options input
  | status => exact follows_status options input
  | text field => exact follows_text_modify options fun _ _ => rfl
  | birth => exact follows_bind (follows_timestamp input) fun _ => follows_modify_roomy input fun _ => rfl
  | joined => exact follows_bind (follows_timestamp input) fun _ => follows_modify_roomy input fun _ => rfl
  | premium => exact follows_premium options input
  | interests => exact follows_interests options input
  | likes =>
      exact follows_bind (follows_modify_roomy input fun _ => rfl) fun _ =>
        follows_elements (follows_like options input)

theorem follows_record :
    Follows input Roomy (Machine.record options input) (Scan.record options) := by
  refine follows_members fun key => follows_bind follows_skipSpace fun _ => ?_
  cases Field.ofName? key with
  | none => exact follows_skipped options input
  | some field => exact follows_value options input field

end Members

/-- No operation of the record decoder traps, and it decodes what the decoder decodes. -/
theorem decodeRecord_eq (options : Options) (account : Account) (input : Bytes) :
    decodeRecord options account input = .ok (Record.decode options account input) := by
  have hfits : Roomy (Record.emptied account) := Arena.fits_empty rfl
  have hcode := (follows_record options input).code _ 0 (Nat.zero_le _) hfits
  change Machine.record options input (Record.emptied account) 0 = .ok (outcome
    ((Scan.record options).run (Record.emptied account) (.start input))) at hcode
  rw [Record.decode_eq]
  change (Machine.record options input (Record.emptied account) 0 >>= _) = _
  rw [hcode, ok_bind]
  cases (Scan.record options).run (Record.emptied account) (.start input) with
  | ok u decoded d => rfl
  | stop why decoded => cases why <;> rfl

end Intake.Checked
