import Intake.Proofs.Arena.Run

/-!
# What spans resolve to

A write either appends all of its bytes or none, and says how large the arena would have had to be. What
was written since some point and finished is named by a span, and the span keeps resolving to those bytes
whatever is done later and whatever of it fails. Three things alone can put an end to that: the arena is
cut back below the end of the span, it is reset, or some of the bytes are overwritten.
-/

namespace Intake

namespace Span

/-- The index lies in the stretch. -/
def Covers (s : Span) (i : Nat) : Prop := s.offset ≤ i ∧ i < s.stop

/-- Some byte belongs to both spans. One that is empty overlaps nothing. -/
def Overlaps (s t : Span) : Prop := ∃ i, s.Covers i ∧ t.Covers i

end Span

namespace Arena

variable {a b : Arena} {span : Span} {bytes : Bytes} {action : Action}

/-! ### Writes -/

/-- The bytes that an action is to append, if it is a write. -/
def Action.bytes? : Action → Option Bytes
  | .allocate n => some (List.replicate n 0)
  | .push byte => some [byte]
  | .extend bytes => some bytes
  | .truncate _ | .reset | .overwrite .. => none

/-- The failure that an action reports. -/
def overflow? (a : Arena) : Action → Option Overflow
  | .allocate n =>
    match a.allocate n with
    | .ok _ => none
    | .error o => some o
  | .push byte =>
    match a.push byte with
    | .ok _ => none
    | .error o => some o
  | .extend bytes =>
    match a.extend bytes with
    | .ok _ => none
    | .error o => some o
  | .truncate _ | .reset | .overwrite .. => none

/-- What a row of writes appends: the bytes of those that fit. -/
def appended (a : Arena) : List Action → Bytes
  | [] => []
  | action :: rest =>
    (if a.overflow? action = none then action.bytes?.getD [] else []) ++ (a.act action).appended rest

theorem extend_eq_error_iff {o : Overflow} : a.extend bytes = .error o ↔
    a.capacity - a.cursor < bytes.length ∧ o = ⟨a.cursor + bytes.length, a.capacity⟩ := by
  unfold extend remaining
  split
  next hroom =>
    constructor
    · intro h
      cases h
    · rintro ⟨hfull, -⟩
      omega
  next hroom =>
    rw [Except.error.injEq, eq_comm]
    exact ⟨fun h => ⟨by omega, h⟩, And.right⟩

/-- All writes do what writing their bytes does. -/
inductive Wrote (a : Arena) (action : Action) (bytes : Bytes) : Prop
  | fits {b : Arena} (hextend : a.extend bytes = .ok b) (hoverflow : a.overflow? action = none)
      (hact : a.act action = b)
  | full {o : Overflow} (hextend : a.extend bytes = .error o) (hoverflow : a.overflow? action = some o)
      (hact : a.act action = a)

theorem wrote_of_bytes? (a : Arena) (h : action.bytes? = some bytes) : Wrote a action bytes := by
  cases action with
  | allocate n =>
      cases h
      by_cases hroom : n ≤ a.remaining
      · exact .fits (by rw [extend, List.length_replicate, if_pos hroom])
          (by rw [overflow?, allocate, if_pos hroom]) (by rw [act, allocate, if_pos hroom])
      · exact .full (by rw [extend, List.length_replicate, if_neg hroom])
          (by rw [overflow?, allocate, if_neg hroom]) (by rw [act, allocate, if_neg hroom])
  | push byte =>
      cases h
      cases hpush : a.push byte with
      | ok b => exact .fits hpush (by rw [overflow?, hpush]) (by rw [act, hpush])
      | error o => exact .full hpush (by rw [overflow?, hpush]) (by rw [act, hpush])
  | extend bytes =>
      cases h
      cases hextend : a.extend bytes with
      | ok b => exact .fits hextend (by rw [overflow?, hextend]) (by rw [act, hextend])
      | error o => exact .full hextend (by rw [overflow?, hextend]) (by rw [act, hextend])
  | truncate | reset | overwrite => cases h

theorem overflow?_eq_some_iff (h : action.bytes? = some bytes) {o : Overflow} :
    a.overflow? action = some o ↔
      a.capacity - a.cursor < bytes.length ∧ o = ⟨a.cursor + bytes.length, a.capacity⟩ := by
  rw [← extend_eq_error_iff]
  cases wrote_of_bytes? a h with
  | fits hextend hoverflow =>
      rw [hextend, hoverflow]
      exact ⟨fun h => (by cases h), fun h => (by cases h)⟩
  | full hextend hoverflow =>
      rw [hextend, hoverflow, Option.some.injEq, Except.error.injEq]

theorem act_of_overflow? {o : Overflow} (h : a.overflow? action = some o) : a.act action = a := by
  cases hbytes : action.bytes? with
  | none => cases action <;> cases hbytes <;> cases h
  | some bytes =>
      cases wrote_of_bytes? a hbytes with
      | fits _ hoverflow =>
          rw [hoverflow] at h
          cases h
      | full _ _ hact => exact hact

theorem contents_act (hbytes : action.bytes? = some bytes) (h : a.overflow? action = none) :
    (a.act action).contents = a.contents ++ bytes := by
  cases wrote_of_bytes? a hbytes with
  | fits hextend _ hact => rw [hact, contents_extend hextend]
  | full _ hoverflow =>
      rw [hoverflow] at h
      cases h

theorem contents_foldl_of_writes {writes : List Action}
    (h : ∀ action ∈ writes, action.bytes?.isSome) :
    (writes.foldl act a).contents = a.contents ++ a.appended writes := by
  induction writes generalizing a with
  | nil => exact (List.append_nil _).symm
  | cons action writes ih =>
      obtain ⟨hfirst, hrest⟩ := List.forall_mem_cons.1 h
      obtain ⟨bytes, hbytes⟩ := Option.isSome_iff_exists.1 hfirst
      rw [List.foldl_cons, ih hrest, appended, ← List.append_assoc]
      congr 1
      cases hoverflow : a.overflow? action with
      | none => rw [contents_act hbytes hoverflow, if_pos rfl, hbytes, Option.getD_some]
      | some o =>
          rw [act_of_overflow? hoverflow, if_neg (Option.some_ne_none o), List.append_nil]

/-! ### Capacity -/

theorem capacity_act (a : Arena) (action : Action) : (a.act action).capacity = a.capacity := by
  cases hbytes : action.bytes? with
  | some bytes =>
      cases wrote_of_bytes? a hbytes with
      | fits hextend _ hact => rw [hact, capacity_extend hextend]
      | full _ _ hact => rw [hact]
  | none =>
      cases action with
      | allocate | push | extend => cases hbytes
      | truncate | reset => rfl
      | overwrite span byte =>
          rw [act, overwrite?]
          split <;> rfl

theorem capacity_run {capacity : Nat} (h : capacity < Span.absentOffset) (actions : List Action) :
    (run capacity actions).capacity = capacity := by
  have hfoldl (a : Arena) : (actions.foldl act a).capacity = a.capacity := by
    induction actions generalizing a with
    | nil => rfl
    | cons action actions ih => rw [List.foldl_cons, ih, capacity_act]
  rw [run, hfoldl]
  exact Nat.min_eq_left (Nat.le_sub_one_of_lt h)

/-! ### Later actions -/

/-- The action leaves the bytes of the span alone. To overwrite a stretch that does not lie in what was
written does nothing, so it spares every span. -/
def Spares (a : Arena) (span : Span) : Action → Prop
  | .allocate _ | .push _ | .extend _ => True
  | .truncate offset => span.stop ≤ offset
  | .reset => False
  | .overwrite other byte => (a.overwrite? other byte).isSome → ¬ other.Overlaps span

/-- Each action of a row leaves the bytes of the span alone when its turn comes. -/
def SparesAll (a : Arena) (span : Span) : List Action → Prop
  | [] => True
  | action :: rest => a.Spares span action ∧ (a.act action).SparesAll span rest

theorem contents_overwrite {byte : Nat → UInt8} (h : a.overwrite? span byte = some b) :
    b.contents = a.contents.mapIdx fun i old =>
      if span.offset ≤ i ∧ i < span.stop then byte (i - span.offset) else old := by
  unfold overwrite? at h
  split at h
  · cases h
    simp only [contents, Array.toList_mapIdx]
  · cases h

theorem get?_truncate {offset : Nat} (hget : a.get? span = some bytes) (h : span.stop ≤ offset) :
    (a.truncate offset).get? span = some bytes := by
  obtain ⟨hpresent, hstop, rfl⟩ := get?_eq_some_iff.1 hget
  refine get?_eq_some_iff.2 ⟨hpresent, ?_, ?_⟩
  · rw [← length_contents, contents_truncate, List.length_take, length_contents]
    exact Nat.le_min.2 ⟨h, hstop⟩
  · rw [contents_truncate, List.drop_take, List.take_take,
      Nat.min_eq_left (Nat.le_sub_of_add_le' h)]

theorem get?_overwrite {other : Span} {byte : Nat → UInt8} (hget : a.get? span = some bytes)
    (hover : a.overwrite? other byte = some b) (h : ¬ other.Overlaps span) :
    b.get? span = some bytes := by
  obtain ⟨hpresent, hstop, rfl⟩ := get?_eq_some_iff.1 hget
  have hcontents := contents_overwrite hover
  have hcursor : b.cursor = a.cursor := by
    rw [← length_contents, hcontents, List.length_mapIdx, length_contents]
  refine get?_eq_some_iff.2 ⟨hpresent, hcursor ▸ hstop, List.ext_getElem? fun i => ?_⟩
  rw [hcontents, List.getElem?_take, List.getElem?_take]
  split
  next hi =>
    have hout : ¬ (other.offset ≤ span.offset + i ∧ span.offset + i < other.stop) := fun hin =>
      h ⟨span.offset + i, hin, Nat.le_add_right _ _, Nat.add_lt_add_left hi _⟩
    rw [List.getElem?_drop, List.getElem?_drop, List.getElem?_mapIdx]
    simp only [if_neg hout, Option.map_id']
  · rfl

/-- A span that is spared resolves to the same bytes after the action. -/
theorem get?_act (hget : a.get? span = some bytes) (h : a.Spares span action) :
    (a.act action).get? span = some bytes := by
  cases hbytes : action.bytes? with
  | some written =>
      cases wrote_of_bytes? a hbytes with
      | fits hextend _ hact => exact hact ▸ get?_of_extends (extends_extend hextend) hget
      | full _ _ hact => exact hact.symm ▸ hget
  | none =>
      cases action with
      | allocate | push | extend => cases hbytes
      | truncate offset => exact get?_truncate hget h
      | reset => exact h.elim
      | overwrite other byte =>
          cases hover : a.overwrite? other byte with
          | none => simpa only [act, hover, Option.getD_none] using hget
          | some b =>
              have hapart := h (by rw [hover]; rfl)
              simpa only [act, hover, Option.getD_some] using get?_overwrite hget hover hapart

theorem get?_foldl {actions : List Action} (hget : a.get? span = some bytes)
    (h : a.SparesAll span actions) : (actions.foldl act a).get? span = some bytes := by
  induction actions generalizing a with
  | nil => exact hget
  | cons action actions ih => exact ih (get?_act hget h.1) h.2

theorem get?_finish_drop (hfits : a.Fits) {start : Nat} (h : start ≤ a.cursor) :
    a.get? (a.finish start) = some (a.contents.drop start) := by
  have hlt := hfits.lt_absentOffset
  refine get?_eq_some_iff.2 ⟨Span.isPresent_of_lt (Nat.lt_of_le_of_lt h hlt),
    Nat.le_of_eq (Span.stop_between h), ?_⟩
  have hlength : (a.contents.drop start).length = a.cursor - start := by
    rw [List.length_drop, length_contents]
  exact (List.take_of_length_le (Nat.le_of_eq hlength)).symm

theorem isSome_get?_iff : (a.get? span).isSome ↔ span.isPresent ∧ span.stop ≤ a.cursor := by
  unfold get?
  split
  next h => exact ⟨fun _ => h, fun _ => rfl⟩
  next h => exact ⟨fun h => (by cases h), fun hin => absurd hin h⟩

/-- **The law of the store.** After any row of actions, whatever of them failed, what was written fits. A
write fails just when its bytes do not fit, reports how many bytes there would have been, and then changes
nothing; otherwise it appends its bytes. A span resolves just when it is present and lies in what was
written. One that was finished resolves to what lay behind its start, which are the bytes that were
appended if the start is where the cursor was, and keeps doing so as long as later actions spare it. -/
theorem resolves_run (capacity : Nat) (hcapacity : capacity < Span.absentOffset)
    (before : List Action) :
    let a := run capacity before
    a.capacity = capacity ∧ a.cursor ≤ capacity ∧
      (∀ action bytes, action.bytes? = some bytes →
        (∀ o, a.overflow? action = some o ↔
          capacity - a.cursor < bytes.length ∧ o = ⟨a.cursor + bytes.length, capacity⟩) ∧
        (a.overflow? action ≠ none → a.act action = a) ∧
        (a.overflow? action = none → (a.act action).contents = a.contents ++ bytes)) ∧
      (∀ span, (a.get? span).isSome ↔ span.isPresent ∧ span.stop ≤ a.cursor) ∧
      (∀ start later, start ≤ a.cursor → a.SparesAll (a.finish start) later →
        (later.foldl act a).get? (a.finish start) = some (a.contents.drop start)) ∧
      (∀ writes later, (∀ action ∈ writes, action.bytes?.isSome) →
        let b := writes.foldl act a
        b.SparesAll (b.finish a.cursor) later →
          (later.foldl act b).get? (b.finish a.cursor) = some (a.appended writes)) := by
  intro a
  have hfits : a.Fits := fits_run capacity before
  have hsame : a.capacity = capacity := capacity_run hcapacity before
  refine ⟨hsame, hsame ▸ hfits,
    fun action bytes hbytes => ⟨fun o => ?_, fun h => ?_, contents_act hbytes⟩,
    fun span => isSome_get?_iff, fun start later hstart hspared => ?_, fun writes later hwrites => ?_⟩
  · rw [overflow?_eq_some_iff hbytes, hsame]
  · obtain ⟨o, ho⟩ := Option.ne_none_iff_exists'.1 h
    exact act_of_overflow? ho
  · exact get?_foldl (get?_finish_drop hfits hstart) hspared
  · intro b hspared
    have hcontents : b.contents = a.contents ++ a.appended writes := contents_foldl_of_writes hwrites
    exact get?_foldl (get?_finish hcontents (Fits.foldl hfits writes)) hspared

/-- A write fails between two that fit. Later a stretch that reaches beyond the end is not overwritten, the
bytes in front are, and the arena is cut back to the end of the span. -/
theorem resolves_run_truncated :
    let a := run 8 [.extend [0x78, 0x79]]
    let writes := [.allocate 2, .extend (List.replicate 5 0x2D), .push 0x63]
    let b := writes.foldl act a
    let later := [.overwrite ⟨4, 9⟩ fun _ => 0x21, .overwrite ⟨0, 2⟩ fun _ => 0x21, .push 0x64,
      .truncate 5, .push 0x65]
    b.finish a.cursor = ⟨2, 3⟩ ∧ b.SparesAll (b.finish a.cursor) later ∧
      (later.foldl act b).get? (b.finish a.cursor) = some [0, 0, 0x63] := by
  intro a writes b later
  have hspan : b.finish a.cursor = ⟨2, 3⟩ := rfl
  have hspared : b.SparesAll (b.finish a.cursor) later := by
    rw [hspan]
    refine ⟨fun hwritten => ?_, fun _ hover => ?_, trivial, Nat.le_refl 5, trivial, trivial⟩
    · have hcursor : b.cursor = 5 := rfl
      rw [overwrite?, hcursor, if_neg (by decide)] at hwritten
      cases hwritten
    · obtain ⟨i, ⟨-, hlt⟩, hle, -⟩ := hover
      exact absurd hlt (Nat.not_lt_of_le hle)
  have hwrites : ∀ action ∈ writes, action.bytes?.isSome := by simp [writes, Action.bytes?]
  obtain ⟨-, -, -, -, -, hresolves⟩ := resolves_run 8 (by decide) [.extend [0x78, 0x79]]
  exact ⟨hspan, hspared, hresolves writes later hwrites hspared⟩

end Arena

end Intake
