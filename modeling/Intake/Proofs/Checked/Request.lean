import Intake.Proofs.Checked.Parameter
import Intake.Proofs.Request.Run

/-!
# Requests by position

The search for the end of a head goes on where the last one stopped, in an input that may have become
shorter since. The head is cut off where the end was found. What the request line writes goes to the
arena of the request, which is emptied before.
-/

namespace Intake.Checked

open Request

/-! ### Pairs -/

variable {t : Table}

def readKey (v : Values t) (key : t.Key) (raw : Bytes) (arena : Arena) :
    Checked (Reading (Values t)) := do
  return (← readValue (t.kind (t.field key)) raw arena).map (v.set key)

/-- Reads the value of the key that `name` names, if there is one. -/
def readParameter (p : Params) (name raw : Bytes) (arena : Arena) :
    Checked (Option (Reading Params)) := do
  match p with
  | .none => return none
  | .filter values =>
    match filterTable.key? name with
    | none => return none
    | some key => return some ((← readKey values key raw arena).map .filter)
  | .selection values =>
    match selectionTable.key? name with
    | none => return none
    | some key => return some ((← readKey values key raw arena).map .selection)

def readPairs (r : Request) : List (Bytes × Bytes) → Checked Request.Outcome
  | [] => return ⟨.accepted, r, []⟩
  | (key, raw) :: rest => do
    if key = queryIdKey then
      match ← unsigned raw with
      | some id => readPairs { r with queryId := some id } rest
      | none => return reject .malformedQueryId r
    else
      match ← readParameter r.params key raw r.arena with
      | none =>
        let outcome ← readPairs r rest
        return { outcome with unknown := key :: outcome.unknown }
      | some (.accepted params arena) => readPairs { r with params, arena } rest
      | some .malformed => return reject .malformedParameter r
      | some (.overflow o arena) => return ⟨.overflow o, { r with arena }, []⟩

theorem readKey_eq {arena : Arena} (hfits : arena.Fits) (v : Values t) (key : t.Key) (raw : Bytes) :
    readKey v key raw arena = .ok (v.read key raw arena) := by
  rw [readKey, readValue_eq hfits]
  rfl

theorem readParameter_eq {arena : Arena} (hfits : arena.Fits) (p : Params) (name raw : Bytes) :
    readParameter p name raw arena = .ok (p.read? name raw arena) := by
  cases p with
  | none => rfl
  | filter values =>
      unfold readParameter Params.read?
      dsimp only
      cases filterTable.key? name with
      | none => rfl
      | some key =>
          dsimp only
          rw [readKey_eq hfits]
          rfl
  | selection values =>
      unfold readParameter Params.read?
      dsimp only
      cases selectionTable.key? name with
      | none => rfl
      | some key =>
          dsimp only
          rw [readKey_eq hfits]
          rfl

theorem accepted_of_map {α β : Type} {f : α → β} {reading : Reading α} {value : β} {written : Arena}
    (h : reading.map f = .accepted value written) : ∃ a, reading = .accepted a written := by
  cases reading with
  | accepted a arena =>
      cases h
      exact ⟨a, rfl⟩
  | malformed | overflow => cases h

/-- What was written fits the arena that an accepted value leaves. -/
theorem fits_of_read {v next : Values t} {key : t.Key} {raw : Bytes} {arena written : Arena}
    (hfits : arena.Fits) (h : v.read key raw arena = .accepted next written) : written.Fits := by
  obtain ⟨value, hvalue⟩ := accepted_of_map h
  exact (read_accepted hfits hvalue).2.1

theorem fits_of_read? {p params : Params} {name raw : Bytes} {arena written : Arena} (hfits : arena.Fits)
    (h : p.read? name raw arena = some (.accepted params written)) : written.Fits := by
  cases p with
  | none => cases h
  | filter values =>
      obtain ⟨key, -, hread⟩ := Option.map_eq_some_iff.1 h
      obtain ⟨next, hnext⟩ := accepted_of_map hread
      exact fits_of_read hfits hnext
  | selection values =>
      obtain ⟨key, -, hread⟩ := Option.map_eq_some_iff.1 h
      obtain ⟨next, hnext⟩ := accepted_of_map hread
      exact fits_of_read hfits hnext

theorem readPairs_eq {r : Request} (hfits : r.arena.Fits) (pairs : List (Bytes × Bytes)) :
    readPairs r pairs = .ok (Request.readPairs r pairs) := by
  induction pairs generalizing r with
  | nil => rfl
  | cons pair rest ih =>
      obtain ⟨key, raw⟩ := pair
      rw [readPairs, Request.readPairs]
      by_cases hkey : key = queryIdKey
      · rw [if_pos hkey, if_pos hkey, unsigned_eq, ok_bind]
        cases Decimal.unsigned? raw with
        | none => rfl
        | some id => exact ih hfits
      rw [if_neg hkey, if_neg hkey, readParameter_eq hfits, ok_bind]
      cases hread : r.params.read? key raw r.arena with
      | none =>
          dsimp only
          rw [ih hfits]
          rfl
      | some reading =>
          cases reading with
          | accepted params arena => exact ih (r := { r with params, arena }) (fits_of_read? hfits hread)
          | malformed | overflow => rfl

/-! ### Lines -/

/-- The endpoint of the segments of a path after its root, and the account it is about. -/
def ofSegments : List Bytes → Checked (Option (Endpoint × Option Nat))
  | [segment] => do
    match collectionEndpoint? segment with
    | some endpoint => return some (endpoint, none)
    | none => return (← unsigned segment).map fun id => (.update, some id)
  | [account, word] => do
    match accountEndpoint? word with
    | none => return none
    | some endpoint => return (← unsigned account).map fun id => (endpoint, some id)
  | _ => return none

def ofPath (path : Bytes) : Checked (Option (Endpoint × Option Nat)) := do
  if pathRoot.isPrefixOf path then
    ofSegments ((dropSlash (path.drop pathRoot.length)).splitOn Byte.slash)
  else return none

def readTarget (r : Request) (target : Bytes) : Checked Request.Outcome := do
  let (path, query) := (target.cut [Byte.questionMark]).getD (target, [])
  match ← ofPath path with
  | none => return reject .unknownEndpoint r
  | some (endpoint, entityId) =>
    if r.method = some endpoint.method then
      readPairs { r with endpoint := some endpoint, entityId, params := .ofEndpoint endpoint }
        (pairs query)
    else return reject .methodNotAllowed r

def readLine (r : Request) (line : Bytes) : Checked Request.Outcome := do
  match lineParts? line with
  | none => return reject .malformedRequestLine r
  | some (method, target, version) =>
    let r := { r with method := Method.ofToken? method }
    if protocol.isPrefixOf version then readTarget r target else return reject .unsupportedProtocol r

theorem ofSegments_eq (segments : List Bytes) : ofSegments segments = .ok (ofSegments? segments) := by
  rcases segments with _ | ⟨account, _ | ⟨word, _ | ⟨_, _⟩⟩⟩
  · rfl
  · rw [ofSegments, ofSegments?]
    cases collectionEndpoint? account with
    | some endpoint => rfl
    | none =>
        dsimp only
        rw [unsigned_eq]
        rfl
  · rw [ofSegments, ofSegments?]
    cases accountEndpoint? word with
    | none => rfl
    | some endpoint =>
        dsimp only
        rw [unsigned_eq, ok_bind]
        cases Decimal.unsigned? account <;> rfl
  · rfl

theorem ofPath_eq (path : Bytes) : ofPath path = .ok (ofPath? path) := by
  unfold ofPath ofPath?
  split
  · exact ofSegments_eq _
  · rfl

theorem readTarget_eq {r : Request} (hfits : r.arena.Fits) (target : Bytes) :
    readTarget r target = .ok (Request.readTarget r target) := by
  unfold readTarget Request.readTarget
  dsimp only
  rw [ofPath_eq, ok_bind]
  cases ofPath? ((target.cut [Byte.questionMark]).getD (target, [])).1 with
  | none => rfl
  | some known =>
      dsimp only
      split
      · exact readPairs_eq (r := { r with
          endpoint := some known.1, entityId := known.2, params := .ofEndpoint known.1 }) hfits _
      · rfl

theorem readLine_eq {r : Request} (hfits : r.arena.Fits) (line : Bytes) :
    readLine r line = .ok (Request.readLine r line) := by
  unfold readLine Request.readLine
  cases lineParts? line with
  | none => rfl
  | some parts =>
      obtain ⟨method, target, version⟩ := parts
      dsimp only
      split
      · exact readTarget_eq (r := { r with method := Method.ofToken? method }) hfits target
      · rfl

/-! ### Heads -/

def readHeaders (offset length : Nat) : List Bytes → Checked (Nat × Option Fault)
  | [] => return (length, none)
  | line :: rest => do
    let next := offset + line.length + Bytes.lineEnd.length
    match line.cut [Byte.colon] with
    | none => readHeaders next length rest
    | some (name, value) =>
      if name.map Byte.toLower = contentLengthName then
        match ← unsigned value.trim with
        | some length => readHeaders next length rest
        | none => return (length, some (.invalidContentLength (offset + name.length + 1)))
      else readHeaders next length rest

def readHead (r : Request) (head : Bytes) : Checked Request.Decoded := do
  let consumed := head.length + terminator.length
  let (line, headers) := (head.cut Bytes.lineEnd).getD (head, [])
  let (contentLength, fault) ← readHeaders (line.length + Bytes.lineEnd.length) 0 headers.lines
  let r := { r.reset with contentLength }
  match fault with
  | some fault => return ⟨.error fault, {}, r, []⟩
  | none =>
    let outcome ← readLine r line
    match outcome.verdict with
    | .overflow o => return ⟨.error (.capacityExceeded o), {}, outcome.request, outcome.events⟩
    | _ =>
      return ⟨.ok (.complete consumed), {}, outcome.request,
        outcome.events ++ [.decodedRequest outcome.request.endpoint consumed]⟩

/-- How many bytes of the terminator are missing, if the input ends with one of these beginnings. -/
def missingAfter (input : Bytes) : List Nat → Checked Nat
  | [] => return terminator.length
  | n :: rest => do
    if (← slice terminator 0 n).isSuffixOf input then difference terminator.length n
    else missingAfter input rest

def missingTerminator (input : Bytes) : Checked Nat := missingAfter input [3, 2, 1]

def decodeRequest (d : Decoder) (r : Request) (input : Bytes) : Checked Request.Decoded := do
  let searched := min d.scanned input.length
  match Bytes.cut (← sliceFrom input searched) terminator with
  | none =>
    return ⟨.ok (.incomplete (← missingTerminator input)),
      ⟨input.length - (terminator.length - 1)⟩, r, []⟩
  | some (before, _) => readHead r (← slice input 0 (searched + before.length))

theorem readHeaders_eq (offset length : Nat) (lines : List Bytes) :
    readHeaders offset length lines = .ok (Request.readHeaders offset length lines) := by
  induction lines generalizing offset length with
  | nil => rfl
  | cons line rest ih =>
      rw [readHeaders, Request.readHeaders]
      cases line.cut [Byte.colon] with
      | none => exact ih _ _
      | some parts =>
          obtain ⟨name, value⟩ := parts
          dsimp only
          split
          · rw [unsigned_eq, ok_bind]
            cases Decimal.unsigned? value.trim with
            | none => rfl
            | some length => exact ih _ _
          · exact ih _ _

theorem readHead_eq (r : Request) (head : Bytes) : readHead r head = .ok (Request.readHead r head) := by
  unfold readHead Request.readHead
  dsimp only
  rw [readHeaders_eq, ok_bind]
  obtain ⟨line, headers⟩ := (head.cut Bytes.lineEnd).getD (head, [])
  dsimp only
  obtain ⟨contentLength, fault⟩ :=
    Request.readHeaders (line.length + Bytes.lineEnd.length) 0 headers.lines
  cases fault with
  | some fault => rfl
  | none =>
      have hfits : ({ r.reset with contentLength } : Request).arena.Fits := Arena.fits_empty rfl
      rw [readLine_eq hfits, ok_bind]
      cases (Request.readLine { r.reset with contentLength } line).verdict <;> rfl

theorem missingAfter_eq (input : Bytes) {sizes : List Nat} (h : ∀ n ∈ sizes, n ≤ terminator.length) :
    missingAfter input sizes = .ok (terminator.length -
      (sizes.find? fun n => (terminator.take n).isSuffixOf input).getD 0) := by
  induction sizes with
  | nil => rfl
  | cons n rest ih =>
      have hn := h n (List.mem_cons_self ..)
      rw [missingAfter, slice_zero hn, ok_bind, List.find?_cons]
      split
      next hsuffix =>
        rw [hsuffix]
        exact difference_of_le hn
      next hsuffix =>
        rw [Bool.eq_false_iff.2 hsuffix]
        exact ih fun m hm => h m (List.mem_cons_of_mem _ hm)

theorem missingTerminator_eq (input : Bytes) :
    missingTerminator input = .ok (Request.missingTerminator input) :=
  missingAfter_eq input (by decide)

/-- No operation of a call traps, and it answers what the decoder answers. -/
theorem decodeRequest_eq (d : Decoder) (r : Request) (input : Bytes) :
    decodeRequest d r input = .ok (d.decode r input) := by
  rw [decodeRequest, sliceFrom_of_le (Nat.min_le_right _ _), ok_bind, Decoder.decode]
  cases hcut : Bytes.cut (input.drop (min d.scanned input.length)) terminator with
  | none =>
      dsimp only
      rw [missingTerminator_eq]
      rfl
  | some parts =>
      obtain ⟨before, after⟩ := parts
      have hlength := congrArg List.length (Bytes.eq_of_cut hcut)
      rw [List.length_drop, List.length_append, List.length_append] at hlength
      dsimp only
      rw [slice_zero (by omega), ok_bind, readHead_eq]

end Intake.Checked
