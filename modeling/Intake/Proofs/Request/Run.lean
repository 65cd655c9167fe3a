import Intake.Proofs.Request.Coherent
import Intake.Proofs.Request.Line

/-!
# Requests stay coherent

A request has an endpoint only while its method, its account and its parameters are those of the
endpoint. The line of a request is understood from left to right, and wherever this stops the request is
turned away as a whole: endpoint and parameters are given up together. Only when the arena is full does
a call end with parameters that are incomplete, and then these are the parameters of the pairs before.
-/

namespace Intake.Request

/-! ### Requests -/

/-- A request without an endpoint has no parameters, and one with an endpoint has those of it. -/
inductive Shape (r : Request) : Prop
  | away (hendpoint : r.endpoint = none) (hparams : r.params = .none)
  | routed {e : Endpoint} {v : Values e.table} (hendpoint : r.endpoint = some e)
      (hmethod : r.method = some e.method)
      (hentity : r.entityId.isSome ↔ e = .recommend ∨ e = .suggest ∨ e = .update)
      (hparams : r.params = e.params v) (hvalues : v.Settled r.arena)

/-- What every call keeps of a request. -/
def Settled (r : Request) : Prop := r.arena.Fits ∧ r.Shape

/-- What a caller may rely on in every request. -/
structure Coherent (r : Request) : Prop where
  cursor_le : r.arena.cursor ≤ r.arena.capacity
  filter : (∃ v, r.params = .filter v) ↔ r.endpoint = some .filter
  selection : (∃ v, r.params = .selection v) ↔
    r.endpoint = some .group ∨ r.endpoint = some .recommend ∨ r.endpoint = some .suggest
  none : r.params = .none ↔ r.endpoint = .none ∨ r.endpoint = some .create ∨
    r.endpoint = some .update ∨ r.endpoint = some .likes
  method : ∀ e, r.endpoint = some e → r.method = some e.method
  entityId : ∀ e, r.endpoint = some e →
    (r.entityId.isSome ↔ e = .recommend ∨ e = .suggest ∨ e = .update)
  filterValues : ∀ v, r.params = .filter v → v.Coherent r.arena
  selectionValues : ∀ v, r.params = .selection v → v.Coherent r.arena

section Params

variable {e : Endpoint} {v : Values e.table}

theorem Endpoint.params_eq_filter_iff : (∃ values, e.params v = .filter values) ↔ e = .filter := by
  cases e with
  | filter => exact iff_of_true ⟨v, rfl⟩ rfl
  | group | recommend | suggest | create | update | likes =>
      refine iff_of_false ?_ (by decide)
      rintro ⟨values, h⟩
      cases h

theorem Endpoint.params_eq_selection_iff : (∃ values, e.params v = .selection values) ↔
    e = .group ∨ e = .recommend ∨ e = .suggest := by
  cases e with
  | group | recommend | suggest => exact iff_of_true ⟨v, rfl⟩ (by decide)
  | filter | create | update | likes =>
      refine iff_of_false ?_ (by decide)
      rintro ⟨values, h⟩
      cases h

theorem Endpoint.params_eq_none_iff :
    e.params v = .none ↔ e = .create ∨ e = .update ∨ e = .likes := by
  cases e with
  | create | update | likes => exact iff_of_true rfl (by decide)
  | filter | group | recommend | suggest =>
      refine iff_of_false (fun h => ?_) (by decide)
      cases h

end Params

theorem Settled.coherent {r : Request} (h : r.Settled) : r.Coherent := by
  obtain ⟨hfits, hshape⟩ := h
  cases hshape with
  | away hendpoint hparams =>
      constructor
      case cursor_le => exact hfits
      all_goals simp [hendpoint, hparams]
  | @routed e v hendpoint hmethod hentity hparams hvalues =>
      constructor
      case cursor_le => exact hfits
      case method =>
        intro e' he'
        cases hendpoint.symm.trans he'
        exact hmethod
      case entityId =>
        intro e' he'
        cases hendpoint.symm.trans he'
        exact hentity
      case filterValues =>
        intro v' hv'
        cases e <;> cases hparams.symm.trans hv'
        exact hvalues.coherent sound_filterTable ownTexts_filterTable
      case selectionValues =>
        intro v' hv'
        cases e <;> cases hparams.symm.trans hv' <;>
          exact hvalues.coherent sound_selectionTable ownTexts_selectionTable
      case filter =>
        rw [hparams, hendpoint, Option.some.injEq]
        exact Endpoint.params_eq_filter_iff
      case selection =>
        simp only [hparams, hendpoint, Option.some.injEq]
        exact Endpoint.params_eq_selection_iff
      case none =>
        simp only [hparams, hendpoint, Option.some.injEq, reduceCtorEq, false_or]
        exact Endpoint.params_eq_none_iff

/-! ### Reading -/

section Reading

variable {r : Request}

theorem settled_turnAway (hfits : r.arena.Fits) : Settled r.turnAway := ⟨hfits, .away rfl rfl⟩

theorem accepted_of_read? {e : Endpoint} {v : Values e.table} {key raw : Bytes} {arena b : Arena}
    {params : Params} (h : (e.params v).read? key raw arena = some (.accepted params b)) :
    ∃ known value, (e.table.kind (e.table.field known)).read raw arena = .accepted value b ∧
      params = e.params (v.set known value) := by
  rw [e.wraps_params, Option.map_eq_some_iff] at h
  obtain ⟨known, -, hreading⟩ := h
  unfold Values.read at hreading
  cases hanswer : (e.table.kind (e.table.field known)).read raw arena with
  | accepted value written =>
      rw [hanswer] at hreading
      cases hreading
      exact ⟨known, value, hanswer, rfl⟩
  | malformed =>
      rw [hanswer] at hreading
      cases hreading
  | overflow o written =>
      rw [hanswer] at hreading
      cases hreading

theorem overflow_of_read? {e : Endpoint} {v : Values e.table} {key raw : Bytes} {arena b : Arena}
    {o : Overflow} (h : (e.params v).read? key raw arena = some (.overflow o b)) :
    ∃ kind : ParameterKind, kind.read raw arena = .overflow o b := by
  rw [e.wraps_params, Option.map_eq_some_iff] at h
  obtain ⟨known, -, hreading⟩ := h
  unfold Values.read at hreading
  cases hanswer : (e.table.kind (e.table.field known)).read raw arena with
  | overflow o' written =>
      rw [hanswer] at hreading
      cases hreading
      exact ⟨_, hanswer⟩
  | malformed =>
      rw [hanswer] at hreading
      cases hreading
  | accepted value written =>
      rw [hanswer] at hreading
      cases hreading

/-- Each pair that is read sets one field, or is passed over, or ends the reading. -/
theorem settled_readPairs {e : Endpoint} {v : Values e.table} (hfits : r.arena.Fits)
    (hendpoint : r.endpoint = some e) (hmethod : r.method = some e.method)
    (hentity : r.entityId.isSome ↔ e = .recommend ∨ e = .suggest ∨ e = .update)
    (hparams : r.params = e.params v) (hvalues : v.Settled r.arena) (pairs : List (Bytes × Bytes)) :
    Settled (readPairs r pairs).request := by
  fun_induction readPairs r pairs generalizing v with
  | case1 r => exact ⟨hfits, .routed hendpoint hmethod hentity hparams hvalues⟩
  | case2 r raw rest id hid ih => exact ih hfits hendpoint hmethod hentity hparams hvalues
  | case3 r => exact settled_turnAway hfits
  | case4 r key raw rest hkey hread outcome =>
      rename_i ih
      exact ih hfits hendpoint hmethod hentity hparams hvalues
  | case5 r key raw rest hkey params arena hread ih =>
      rw [hparams] at hread
      obtain ⟨known, value, hanswer, rfl⟩ := accepted_of_read? hread
      obtain ⟨hext, hroom, hproper, hspan⟩ := read_accepted hfits hanswer
      exact ih hroom hendpoint hmethod hentity rfl
        (hvalues.set e.sound_table hext hroom hproper hspan)
  | case6 r => exact settled_turnAway hfits
  | case7 r key raw rest hkey o arena hread =>
      rw [hparams] at hread
      obtain ⟨kind, hanswer⟩ := overflow_of_read? hread
      obtain rfl := read_overflow hanswer
      have hext := extends_percent 0 r.arena 0 raw
      exact ⟨fits_percent 0 0 raw hfits,
        .routed hendpoint hmethod hentity hparams (hvalues.extend hext)⟩

theorem RouteText.isSome_iff {e : Endpoint} {entityId : Option Nat} {route : Bytes}
    (h : RouteText e entityId route) :
    entityId.isSome ↔ e = .recommend ∨ e = .suggest ∨ e = .update := by
  cases h <;> simp

theorem settled_readTarget (hfits : r.arena.Fits) (target : Bytes) :
    Settled (readTarget r target).request := by
  unfold readTarget
  dsimp only
  split
  · exact settled_turnAway hfits
  next e entityId hpath =>
    split
    next hmethod =>
      obtain ⟨route, slash, hroute, -, -⟩ := ofPath?_eq_some_iff.1 hpath
      exact settled_readPairs
        (r := { r with endpoint := some e, entityId, params := .ofEndpoint e }) hfits rfl hmethod
        hroute.isSome_iff e.params_empty.symm (Values.settled_empty r.arena) _
    · exact settled_turnAway hfits

theorem settled_readLine (hfits : r.arena.Fits) (line : Bytes) :
    Settled (readLine r line).request := by
  unfold readLine
  split
  · exact settled_turnAway hfits
  next method target version _ =>
    dsimp only
    split
    · exact settled_readTarget (r := { r with method := Method.ofToken? method }) hfits target
    · exact settled_turnAway hfits

theorem settled_readHead (r : Request) (head : Bytes) : Settled (readHead r head).request := by
  have hfits : r.arena.reset.Fits := Arena.fits_empty rfl
  simp only [readHead]
  split
  · exact ⟨hfits, .away rfl rfl⟩
  · split <;> exact settled_readLine hfits _

end Reading

/-! ### Runs -/

/-- What can be done to a request. -/
inductive Action where
  /-- A call of a decoder, which may have searched any part of other inputs before. -/
  | decode (decoder : Decoder) (input : Bytes)
  | reset

/-- The request after an action, whatever the action came to. -/
def act (r : Request) : Action → Request
  | .decode decoder input => (decoder.decode r input).request
  | .reset => r.reset

/-- A new request after a row of actions. -/
def run (options : Options) (actions : List Action) : Request := actions.foldl act (.new options)

theorem settled_new (options : Options) : Settled (.new options) :=
  ⟨Arena.fits_empty rfl, .away rfl rfl⟩

/-- A complete head is read from the start, and until there is one the request is left alone. -/
theorem Settled.act {r : Request} (h : r.Settled) (action : Action) : Settled (r.act action) := by
  cases action with
  | decode decoder input =>
      simp only [Request.act, Decoder.decode]
      split
      · exact h
      · exact settled_readHead r _
  | reset => exact ⟨Arena.fits_empty rfl, .away rfl rfl⟩

theorem Settled.foldl {r : Request} (h : r.Settled) (actions : List Action) :
    Settled (actions.foldl Request.act r) := by
  induction actions generalizing r with
  | nil => exact h
  | cons action actions ih => exact ih (h.act action)

/-- **Requests stay coherent.** After any row of calls, failed ones among them, the parameters of a
request are those of its endpoint, and what they say was given is there. -/
theorem coherent_run (options : Options) (actions : List Action) : Coherent (run options actions) :=
  (Settled.foldl (settled_new options) actions).coherent

end Intake.Request
