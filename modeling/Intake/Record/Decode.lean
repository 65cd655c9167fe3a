import Intake.Account
import Intake.Event
import Intake.Record.Quoted
import Intake.Record.Scan
import Intake.Record.Skip

/-!
# Records

A record is one object whose members fill an account. The key of a member selects how its value is
read; a key that names no field has its value stepped over. Of a member that occurs again the last
value counts.

A decoder keeps nothing between calls: after an input that was too short it is called again with a
longer one.
-/

namespace Intake.Record

inductive Field where
  | id
  | sex
  | status
  | text (field : TextField)
  | birth
  | joined
  | premium
  | interests
  | likes
deriving DecidableEq

namespace Field

def names : List (Bytes × Field) :=
  [("id", id), ("sex", sex), ("status", status), ("birth", birth), ("joined", joined),
    ("premium", premium), ("interests", interests), ("likes", likes)].map
      (fun (name, field) => (Utf8.ofString name, field)) ++
  TextField.all.map fun field => (Utf8.ofString field.name, text field)

def ofName? (name : Bytes) : Option Field := names.lookup name

end Field

def quoted (combineSurrogates : Bool) (arena : Arena) (c : Cursor) : Read (Span × Arena) :=
  match expect Byte.quote c with
  | .error why => .error why
  | .ok (_, body) =>
    match Quoted.decode combineSurrogates arena body with
    | .error why => .error why
    | .ok (span, written, after) => .ok ((span, written), after)

theorem forward_quoted (combineSurrogates : Bool) (arena : Arena) :
    Forward (quoted combineSurrogates arena) := by
  intro c a d h
  unfold quoted at h
  split at h
  · cases h
  next he =>
    split at h
    · cases h
    next hq =>
      cases h
      exact (reaches_of_expect he).1.trans (Quoted.reaches_of_decode hq)

namespace Scan

/-- Reads a text into the account's arena. -/
def text (options : Options) : Scan Account Span := do
  let account ← get
  let (span, arena) ← read (quoted options.combineSurrogates account.arena) (forward_quoted _ _)
  modify ({ · with arena })
  return span

/-- Reads a text only to look at it. The arena has to have room for it but keeps nothing. -/
def scratch (options : Options) : Scan Account Bytes := do
  let account ← get
  let (span, arena) ← read (quoted options.combineSurrogates account.arena) (forward_quoted _ _)
  return arena.view span

def identifier {σ : Type} : Scan σ Nat := read Record.identifier forward_identifier

def timestamp {σ : Type} : Scan σ Int := read Record.timestamp forward_timestamp

def skipValue {σ : Type} (options : Options) : Scan σ Unit :=
  read (Record.skipValue options.maxNesting) (forward_skipValue _)

def sex (options : Options) : Scan Account Unit := do
  let offset ← position
  match Sex.ofCode? (← scratch options) with
  | some sex => modify ({ · with sex := some sex })
  | none => fail (.invalidSex offset)

def status (options : Options) : Scan Account Unit := do
  let offset ← position
  match Status.ofLiteral? (← scratch options) with
  | some status => modify ({ · with status := some status })
  | none => fail (.invalidStatus offset)

def startKey : Bytes := Utf8.ofString "start"

def finishKey : Bytes := Utf8.ofString "finish"

def premiumMember (options : Options) (key : Bytes) : Scan Premium Unit := do
  if key = startKey then
    let start ← timestamp
    modify ({ · with start })
  else if key = finishKey then
    let finish ← timestamp
    modify ({ · with finish })
  else skipValue options

/-- A premium time that lacks an end is absent as a whole. -/
def premium (options : Options) : Scan Account Unit := do
  let (_, premium) ← withState .absent (members (premiumMember options))
  modify ({ · with premium := if premium.isPresent then premium else .absent })

/-- Replaces the interests by those of an array. -/
def interests (options : Options) : Scan Account Unit := do
  modify (·.clearInterests)
  elements do
    let span ← text options
    modify (·.pushInterest span)

/-- The members of a like that have been read so far. -/
structure PartialLike where
  id : Option Nat := none
  timestamp : Option Int := none

def likeIdKey : Bytes := Utf8.ofString "id"

def likeTimestampKey : Bytes := Utf8.ofString "ts"

def likeMember (options : Options) (key : Bytes) : Scan PartialLike Unit := do
  if key = likeIdKey then
    let id ← identifier
    modify ({ · with id := some id })
  else if key = likeTimestampKey then
    let timestamp ← timestamp
    modify ({ · with timestamp := some timestamp })
  else skipValue options

def like (options : Options) : Scan Account Unit := do
  let offset ← position
  let (_, found) ← withState {} (members (likeMember options))
  match found.id, found.timestamp with
  | some toId, some timestamp => modify (·.addLike { toId, timestamp })
  | _, _ => fail (.incompleteLike offset)

/-- Replaces the likes by those of an array. -/
def likes (options : Options) : Scan Account Unit := do
  modify (·.clearLikes)
  elements (like options)

def value (options : Options) : Field → Scan Account Unit
  | .id => do
    let id ← identifier
    modify ({ · with id })
  | .sex => sex options
  | .status => status options
  | .text field => do
    let span ← text options
    modify (·.setText field span)
  | .birth => do
    let birth ← timestamp
    modify ({ · with birth })
  | .joined => do
    let joined ← timestamp
    modify ({ · with joined })
  | .premium => premium options
  | .interests => interests options
  | .likes => likes options

def member (options : Options) (key : Bytes) : Scan Account Unit := do
  skipSpace
  match Field.ofName? key with
  | some field => value options field
  | none => skipValue options

def record (options : Options) : Scan Account Unit :=
  members (member options)

end Scan

/-- The answer of the decoder. The account holds what was read before the decoder stopped. -/
structure Decoded where
  result : Except Fault Progress
  account : Account

/-- Decodes the record at the start of `input` into `account`, which is emptied first. -/
def decode (options : Options) (account : Account) (input : Bytes) : Decoded :=
  let empty := { account.clear with arena := account.arena.reset }
  match (Scan.record options).run empty (.start input) with
  | .ok _ account after => ⟨.ok (.complete after.pos), account⟩
  | .stop (.incomplete missing) account => ⟨.ok (.incomplete missing), account⟩
  | .stop (.fault fault) account => ⟨.error fault, account⟩

theorem consumed_of_decode {options : Options} {account : Account} {input : Bytes} {consumed : Nat}
    (h : (decode options account input).result = .ok (.complete consumed)) :
    0 < consumed ∧ consumed ≤ input.length := by
  simp only [decode] at h
  split at h
  next hrun =>
    cases h
    have hlt := Scan.length_lt_of_members hrun
    have hpos := (Scan.reaches _ hrun).pos_add_length
    simp only [Cursor.start] at hlt hpos
    omega
  · cases h
  · cases h

/-- What the decoder reports: only records that are complete. -/
def Decoded.events (d : Decoded) : List Event :=
  match d.result with
  | .ok (.complete consumed) =>
    [.decodedAccount d.account.id consumed]
  | _ => []

end Intake.Record
