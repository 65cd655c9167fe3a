import Intake.Proofs.Arena
import Intake.Request.Head

/-!
# Requests that are used again

A request carries a number that is the caller's own. Decoding forgets everything else about the request
it is given, apart from the capacity of its arena, and never looks at the number: to read a head into
a request that was used before is to read it into a new one and to write the number on the result.
-/

namespace Intake.Request

/-- The same request under another number. -/
def relabel (r : Request) (id : Nat) : Request := { r with requestId := id }

def Outcome.relabel (o : Outcome) (id : Nat) : Outcome := { o with request := o.request.relabel id }

def Decoded.relabel (d : Decoded) (id : Nat) : Decoded := { d with request := d.request.relabel id }

/-- A request of the same capacity, before anything is decoded into it. -/
def blank (r : Request) : Request := .new { arenaCapacity := r.arena.capacity }

theorem reset_blank (r : Request) : r.blank.reset.relabel r.requestId = r.reset := by
  simp only [blank, new, reset, relabel, Arena.withCapacity, Arena.reset,
    Nat.min_eq_left r.arena.capacity_le]

variable (r : Request) (id : Nat)

@[simp] theorem relabel_params : (r.relabel id).params = r.params := rfl

@[simp] theorem relabel_arena : (r.relabel id).arena = r.arena := rfl

theorem readPairs_relabel (pairs : List (Bytes × Bytes)) :
    readPairs (r.relabel id) pairs = (readPairs r pairs).relabel id := by
  induction pairs generalizing r with
  | nil => rfl
  | cons pair rest ih =>
      obtain ⟨key, raw⟩ := pair
      by_cases hkey : key = queryIdKey
      · simp only [readPairs, if_pos hkey]
        cases Decimal.unsigned? raw with
        | none => rfl
        | some queryId => exact ih { r with queryId := some queryId }
      · simp only [readPairs, if_neg hkey, relabel_params, relabel_arena]
        cases r.params.read? key raw r.arena with
        | none => rw [ih r]; rfl
        | some reading =>
            cases reading with
            | accepted params arena => exact ih { r with params, arena }
            | malformed => rfl
            | overflow o arena => rfl

theorem readTarget_relabel (target : Bytes) :
    readTarget (r.relabel id) target = (readTarget r target).relabel id := by
  simp only [readTarget]
  split
  · rfl
  next endpoint entityId _ =>
    by_cases hmethod : r.method = some endpoint.method
    · have hlabel : (r.relabel id).method = some endpoint.method := hmethod
      rw [if_pos hlabel, if_pos hmethod]
      exact readPairs_relabel
        { r with endpoint := some endpoint, entityId, params := .ofEndpoint endpoint } id _
    · have hlabel : (r.relabel id).method ≠ some endpoint.method := hmethod
      rw [if_neg hlabel, if_neg hmethod]
      rfl

theorem readLine_relabel (line : Bytes) :
    readLine (r.relabel id) line = (readLine r line).relabel id := by
  unfold readLine
  split
  · rfl
  next method target version _ =>
    by_cases hprotocol : protocol.isPrefixOf version
    · simp only [if_pos hprotocol]
      exact readTarget_relabel { r with method := Method.ofToken? method } id target
    · simp only [if_neg hprotocol]
      rfl

theorem readHead_eq (head : Bytes) : readHead r head = (readHead r.blank head).relabel r.requestId := by
  have hreset (contentLength : Nat) : { r.reset with contentLength } =
      relabel { r.blank.reset with contentLength } r.requestId := by
    rw [← reset_blank]
    rfl
  simp only [readHead, hreset, readLine_relabel]
  split
  · rfl
  · simp only [Outcome.relabel]
    split <;> rfl

/-! ### The capacity of the arena -/

/-- The arena of a reading, where it has one, has the capacity `n`. -/
def Reading.Within {α : Type} (n : Nat) : Reading α → Prop
  | accepted _ arena => arena.capacity = n
  | malformed => True
  | .overflow _ arena => arena.capacity = n

theorem capacity_percent (written : Nat) (arena : Arena) (pos : Nat) (bs : Bytes) :
    (Percent.decodeFrom written arena pos bs).arena.capacity = arena.capacity := by
  fun_induction Percent.decodeFrom written arena pos bs with
  | case1 | case2 | case3 | case5 | case6 | case7 => rfl
  | case4 _ _ _ _ _ _ _ hpush _ ih => rw [ih, Arena.capacity_extend hpush]
  | case8 _ _ _ _ _ _ _ _ hpush ih => rw [ih, Arena.capacity_extend hpush]

namespace Reading

variable {α β : Type} {n : Nat} {arena : Arena}

theorem within_ofOption (value : Option α) (h : arena.capacity = n) :
    (ofOption value arena).Within n := by
  cases value with
  | none => trivial
  | some value => exact h

theorem within_map {f : α → β} {reading : Reading α} (h : reading.Within n) :
    (reading.map f).Within n := by
  cases reading <;> exact h

theorem within_text (raw : Bytes) (h : arena.capacity = n) : (text raw arena).Within n := by
  have hcap := (capacity_percent 0 arena 0 raw).trans h
  unfold text
  dsimp only
  split
  · trivial
  · split
    · exact hcap
    · exact hcap
    · trivial
    · trivial

theorem within_scratch (inspect : Bytes → Option α) (raw : Bytes) (h : arena.capacity = n) :
    (scratch inspect raw arena).Within n := by
  have htext := within_text raw h
  unfold scratch
  split
  · exact within_ofOption _ h
  · trivial
  next hread =>
    rw [hread] at htext
    exact htext

end Reading

theorem within_read (kind : ParameterKind) (raw : Bytes) (arena : Arena) :
    (kind.read raw arena).Within arena.capacity := by
  cases kind with
  | text => exact Reading.within_text raw rfl
  | status => exact Reading.within_scratch (fun text => (Status.ofLiteral? text).map some) raw rfl
  | keys => exact Reading.within_scratch GroupKeys.parse? raw rfl
  | sex | flag | signed | count | code | limit | order => exact Reading.within_ofOption _ rfl

theorem within_read? {params : Params} {name raw : Bytes} {arena : Arena} {reading : Reading Params}
    (h : params.read? name raw arena = some reading) : reading.Within arena.capacity := by
  cases params with
  | none => cases h
  | filter values | selection values =>
      obtain ⟨key, -, rfl⟩ := Option.map_eq_some_iff.1 h
      exact Reading.within_map (Reading.within_map (within_read _ raw arena))

theorem capacity_readPairs (pairs : List (Bytes × Bytes)) :
    (readPairs r pairs).request.arena.capacity = r.arena.capacity := by
  fun_induction readPairs r pairs with
  | case1 => rfl
  | case2 r raw rest id _ ih => exact ih
  | case3 => rfl
  | case4 r key raw rest _ _ outcome ih => exact ih
  | case5 r key raw rest _ params arena hread ih => exact ih.trans (within_read? hread)
  | case6 => rfl
  | case7 r key raw rest _ o arena hread => exact within_read? hread

theorem capacity_readLine (line : Bytes) :
    (readLine r line).request.arena.capacity = r.arena.capacity := by
  unfold readLine
  split
  · rfl
  · simp only
    split
    · simp only [readTarget]
      split
      · rfl
      · split
        · exact capacity_readPairs _ _
        · rfl
    · rfl

theorem capacity_readHead (head : Bytes) :
    (readHead r head).request.arena.capacity = r.arena.capacity := by
  simp only [readHead]
  split
  · rfl
  · split <;> exact capacity_readLine _ _

end Intake.Request
