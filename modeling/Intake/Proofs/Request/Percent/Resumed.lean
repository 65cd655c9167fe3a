import Intake.Proofs.Checked
import Intake.Proofs.Request.Percent.Units

/-!
# Decoding in pieces

An input that arrives in pieces is decoded in pieces. Each call goes on where the one before it stopped,
on a longer part of the input and in the arena that the other left. A call stops between two units, and
how a unit is decoded does not depend on what follows it, so where the input was cut cannot be told from
the outcome.
-/

namespace Intake.Request.Percent

/-- More input may let decoding go on. -/
def Decoded.isOpen (d : Decoded) : Bool :=
  match d.outcome with
  | .ok (.complete _) => false
  | .ok (.exhausted _) => true
  | .ok (.needMore _) => true
  | .error _ => false

/-- The outcome with `earlier` bytes more among those written. -/
def Outcome.counting (earlier : Nat) : Outcome → Outcome
  | .complete written => .complete (earlier + written)
  | .exhausted written => .exhausted (earlier + written)
  | .needMore missing => .needMore missing

def Decoded.counting (earlier : Nat) (d : Decoded) : Decoded :=
  { d with outcome := d.outcome.map (.counting earlier) }

/-- A run of calls: the input of the last one, how many bytes those before it wrote, and what the last
one returned. -/
structure Resumed where
  input : Bytes
  earlier : Nat
  last : Decoded

/-- Decodes an input, and then each of the later ones in turn, for as long as more input may help. -/
def resume (arena : Arena) (pos : Nat) (input : Bytes) : List Bytes → Resumed
  | [] => ⟨input, 0, decode arena (.within input pos)⟩
  | next :: later =>
    let d := decode arena (.within input pos)
    if d.isOpen then
      let r := resume d.arena d.after.pos next later
      { r with earlier := d.arena.cursor - arena.cursor + r.earlier }
    else ⟨input, 0, d⟩

variable {arena : Arena} {pos : Nat} {input next raw : Bytes} {later : List Bytes}

/-! ### What one call passes -/

/-- What is passed stands for what is written. -/
structure Passes (arena : Arena) (raw : Bytes) (pos : Nat) (d : Decoded) (units text : Bytes) : Prop where
  rest : raw = units ++ d.after.rest
  after : d.after.pos = pos + units.length
  denotes : Denotes text units
  contents : d.arena.contents = arena.contents ++ text
  capacity : d.arena.capacity = arena.capacity
  room : text.length ≤ arena.remaining

theorem Passes.of_stop {d : Decoded} (hafter : d.after = ⟨pos, raw⟩) (harena : d.arena = arena) :
    Passes arena raw pos d [] [] where
  rest := (congrArg Cursor.rest hafter).symm
  after := congrArg Cursor.pos hafter
  denotes := .nil
  contents := harena ▸ (List.append_nil _).symm
  capacity := harena ▸ rfl
  room := Nat.zero_le _

theorem Passes.cons {b : UInt8} (unit : Bytes) {units text : Bytes} {written : Arena} {d : Decoded}
    (hpush : arena.push b = .ok written) (hunit : Denotes text units → Denotes (b :: text) (unit ++ units))
    (h : Passes written raw (pos + unit.length) d units text) :
    Passes arena (unit ++ raw) pos d (unit ++ units) (b :: text) where
  rest := by rw [h.rest, List.append_assoc]
  after := by rw [h.after, List.length_append, Nat.add_assoc]
  denotes := hunit h.denotes
  contents := by rw [h.contents, Arena.contents_extend hpush, List.append_assoc, List.singleton_append]
  capacity := h.capacity.trans (Arena.capacity_extend hpush)
  room := by
    have hroom := h.room
    rw [← remaining_of_push hpush, List.length_cons]
    omega

theorem exists_passes (written : Nat) (arena : Arena) (pos : Nat) (raw : Bytes) :
    ∃ units text, Passes arena raw pos (decodeFrom written arena pos raw) units text := by
  fun_induction decodeFrom written arena pos raw with
  | case1 | case2 | case3 | case5 | case6 | case7 => exact ⟨[], [], .of_stop rfl rfl⟩
  | case4 _ _ pos high low tail _ hpush _ ih =>
      obtain ⟨units, text, h⟩ := ih
      exact ⟨_, _, Passes.cons [Byte.percent, high, low] hpush .escape h⟩
  | case8 _ _ pos b rest hb hpercent _ hpush ih =>
      obtain ⟨units, text, h⟩ := ih
      have hunit (htext : Denotes text units) : Denotes (_ :: text) ([b] ++ units) :=
        (denotes_cons_iff hb hpercent).2 ⟨text, rfl, htext⟩
      exact ⟨_, _, Passes.cons [b] hpush hunit h⟩

/-- An escape that is cut short is left to the next call. -/
theorem rest_of_needMore {written missing : Nat}
    (h : (decodeFrom written arena pos raw).outcome = .ok (.needMore missing)) :
    ∃ tail, (decodeFrom written arena pos raw).after.rest = Byte.percent :: tail ∧
      tail.length + 1 + missing = 3 ∧ 0 < missing := by
  fun_induction decodeFrom written arena pos raw with
  | case1 | case2 | case3 | case7 => cases h
  | case4 _ _ _ _ _ _ _ _ _ ih | case8 _ _ _ _ _ _ _ _ _ ih => exact ih h
  | case5 | case6 =>
      cases h
      exact ⟨_, rfl, rfl, by decide⟩

/-! ### Counting -/

theorem Decoded.counting_zero (d : Decoded) : d.counting 0 = d := by
  obtain ⟨outcome, arena, after⟩ := d
  cases outcome with
  | error => rfl
  | ok outcome => cases outcome <;> simp [counting, Except.map, Outcome.counting]

theorem Decoded.counting_counting (m n : Nat) (d : Decoded) :
    (d.counting n).counting m = d.counting (m + n) := by
  obtain ⟨outcome, arena, after⟩ := d
  cases outcome with
  | error => rfl
  | ok outcome => cases outcome <;> simp [counting, Except.map, Outcome.counting, Nat.add_assoc]

theorem decodeFrom_add (earlier written : Nat) (arena : Arena) (pos : Nat) (raw : Bytes) :
    decodeFrom (earlier + written) arena pos raw =
      (decodeFrom written arena pos raw).counting earlier := by
  fun_induction decodeFrom written arena pos raw with
  | case1 | case5 | case6 => rfl
  | case2 _ _ _ b rest hb =>
      rw [decodeFrom.eq_def]
      exact if_pos hb
  | case3 _ _ _ _ _ _ _ hpush =>
      rw [decodeFrom.eq_def]
      simp only [hpush]
      rfl
  | case4 _ _ _ _ _ _ _ hpush _ ih =>
      rw [decodeFrom.eq_def]
      simp only [hpush]
      exact ih
  | case7 _ _ _ b rest hb hpercent _ hpush =>
      rw [decodeFrom.eq_def]
      simp only [hb, hpercent, hpush, Bool.false_eq_true, if_false]
      rfl
  | case8 _ _ _ b rest hb hpercent _ hpush ih =>
      rw [decodeFrom.eq_def]
      simp only [hb, hpercent, hpush, Bool.false_eq_true, if_false]
      exact ih

/-! ### Going on -/

/-- Going on with a longer part of the input gives what decoding it from the start gives. -/
theorem decode_eq_counting (arena : Arena) (pos : Nat) (h : input <+: next) :
    let d := decode arena (.within input pos)
    decode arena (.within next pos) =
      (decode d.arena (.within next d.after.pos)).counting (d.arena.cursor - arena.cursor) := by
  intro d
  obtain ⟨more, rfl⟩ := h
  obtain ⟨units, text, hpasses⟩ := exists_passes 0 arena pos (input.drop pos)
  change Passes arena (input.drop pos) pos d units text at hpasses
  obtain ⟨after, hcontents, hcapacity, hdecode⟩ := decodes_of_denotes hpasses.denotes hpasses.room
  have harena : after = d.arena :=
    Arena.eq_of_contents (hcontents.trans hpasses.contents.symm) (hcapacity.trans hpasses.capacity.symm)
  have hwritten : d.arena.cursor - arena.cursor = text.length := by
    rw [← Arena.length_contents d.arena, hpasses.contents, List.length_append, Arena.length_contents,
      Nat.add_sub_cancel_left]
  have hdrop : (input ++ more).drop pos = units ++ (d.after.rest ++ more.drop (pos - input.length)) := by
    rw [List.drop_append, hpasses.rest, List.append_assoc]
  have hrest : (input ++ more).drop d.after.pos = d.after.rest ++ more.drop (pos - input.length) := by
    rw [hpasses.after, ← List.drop_drop, hdrop, List.drop_left]
  calc decode arena (.within (input ++ more) pos)
      = decodeFrom 0 arena pos (units ++ (d.after.rest ++ more.drop (pos - input.length))) := by
        rw [← hdrop]
        rfl
    _ = decodeFrom text.length d.arena d.after.pos (d.after.rest ++ more.drop (pos - input.length)) := by
        rw [hdecode, harena, hpasses.after, Nat.zero_add]
    _ = (decode d.arena (.within (input ++ more) d.after.pos)).counting text.length := by
        rw [← hrest]
        exact decodeFrom_add text.length 0 d.arena d.after.pos _
    _ = _ := by rw [hwritten]

theorem resume_input_mem (arena : Arena) (pos : Nat) (input : Bytes) (later : List Bytes) :
    (resume arena pos input later).input ∈ input :: later := by
  fun_induction resume arena pos input later with
  | case1 | case3 => exact List.mem_cons_self
  | case2 _ _ _ _ _ _ _ _ ih => exact List.mem_cons_of_mem _ ih

theorem resume_input_of_isOpen (h : (resume arena pos input later).last.isOpen) :
    (resume arena pos input later).input = (input :: later).getLast (List.cons_ne_nil _ _) := by
  fun_induction resume arena pos input later with
  | case1 => rfl
  | case2 _ _ _ _ _ _ _ _ ih => exact ih h
  | case3 _ _ _ _ _ _ hclosed => exact absurd h hclosed

theorem decode_resume_input (h : (input :: later).Pairwise (· <+: ·)) :
    let r := resume arena pos input later
    decode arena (.within r.input pos) = r.last.counting r.earlier := by
  fun_induction resume arena pos input later with
  | case1 | case3 => exact (Decoded.counting_zero _).symm
  | case2 arena pos input next later d _ r ih =>
      obtain ⟨hfront, hlater⟩ := List.pairwise_cons.1 h
      have hgo := decode_eq_counting arena pos
        (hfront r.input (resume_input_mem d.arena d.after.pos next later))
      exact hgo.trans ((congrArg _ (ih hlater)).trans (Decoded.counting_counting _ _ _))

/-- The place where a call stops, seen from its input. -/
theorem rest_after_decode (arena : Arena) (input : Bytes) (pos : Nat) :
    (decode arena (.within input pos)).after.rest =
      input.drop (decode arena (.within input pos)).after.pos :=
  congrArg Cursor.rest (Cursor.within_of_reaches (reaches_decodeFrom 0 arena pos (input.drop pos)))

/-- **Decoding does not depend on how the input arrives.** Whatever parts of an input are tried in turn,
each longer than the one before, the calls end where one call on the last part tried ends, with the same
arena and the same outcome, in which the bytes that the earlier calls wrote are counted as well. Together
they pass whole units, each of them once, and write what these stand for. If they end at an escape that
is cut short, they leave it whole, and as many bytes of it are missing as the outcome says. -/
theorem decode_resume (arena : Arena) (pos : Nat) (h : (input :: later).Pairwise (· <+: ·)) :
    let r := resume arena pos input later
    (r.input ∈ input :: later ∧ (r.last.isOpen → r.input = (input :: later).getLast (List.cons_ne_nil _ _))) ∧
      decode arena (.within r.input pos) = r.last.counting r.earlier ∧
      (∃ units text, Passes arena (r.input.drop pos) pos r.last units text) ∧
      ∀ missing, r.last.outcome = .ok (.needMore missing) →
        0 < missing ∧ r.input[r.last.after.pos]? = some Byte.percent ∧
          r.last.after.pos + 3 = r.input.length + missing := by
  intro r
  have hsame : decode arena (.within r.input pos) = r.last.counting r.earlier := decode_resume_input h
  refine ⟨⟨resume_input_mem arena pos input later, resume_input_of_isOpen⟩, hsame, ?_, ?_⟩
  · obtain ⟨units, text, hpasses⟩ := exists_passes 0 arena pos (r.input.drop pos)
    change Passes _ _ _ (decode arena (.within r.input pos)) _ _ at hpasses
    rw [hsame] at hpasses
    exact ⟨units, text, hpasses.rest, hpasses.after, hpasses.denotes, hpasses.contents, hpasses.capacity,
      hpasses.room⟩
  · intro missing hmissing
    have houtcome : (decode arena (.within r.input pos)).outcome = .ok (.needMore missing) := by
      rw [hsame, Decoded.counting, hmissing]
      rfl
    obtain ⟨tail, htail, hlength, hpos⟩ := rest_of_needMore houtcome
    have hrest := rest_after_decode arena r.input pos
    change (decode arena (.within r.input pos)).after.rest = Byte.percent :: tail at htail
    rw [htail, hsame] at hrest
    change Byte.percent :: tail = r.input.drop r.last.after.pos at hrest
    refine ⟨hpos, ?_, ?_⟩
    · rw [← List.head?_drop, ← hrest, List.head?_cons]
    · have hcount := congrArg List.length hrest
      rw [List.length_cons, List.length_drop] at hcount
      omega

/-- The bytes of an escape arrive one by one. -/
theorem decode_resume_escape :
    let input := Utf8.ofString "a%2Bb+c%zz"
    let arena := Arena.withCapacity 8
    let r := resume arena 0 (input.take 8) [input.take 9, input]
    [input.take 8, input.take 9, input].Pairwise (· <+: ·) ∧ r.input = input ∧
      r.last.arena.contents = Utf8.ofString "a+b c" ++ [0] ∧ r.earlier = 5 ∧
      decode arena (.within input 0) = r.last.counting 5 := by
  intro input arena r
  have hgrowing : [input.take 8, input.take 9, input].Pairwise (· <+: ·) := by decide
  obtain ⟨-, hsame, -⟩ := decode_resume arena 0 hgrowing
  have hruns : r.input = input ∧ r.last.arena.contents = Utf8.ofString "a+b c" ++ [0] ∧ r.earlier = 5 := by
    decide +kernel
  obtain ⟨hinput, hcontents, hearlier⟩ := hruns
  rw [hinput, hearlier] at hsame
  exact ⟨hgrowing, hinput, hcontents, hearlier, hsame⟩

end Intake.Request.Percent
