import Intake.Proofs.Request.Feed

/-!
# What is missing of a terminator

An input without a terminator may end within one. A terminator begins as it ends, so more than one
beginning of it may stand at the end of the input; the longest is the one that can be completed first.
What is missing of that one is what the decoder asks for: fewer bytes complete no terminator, whatever
they are, and the last bytes of the terminator complete the head.

This is so however the input arrived. The decoder leaves out no more of it than what lies in front of its
last three bytes, whatever prefixes of the input it was given before.
-/

namespace Intake.Request

open Bytes (Leads)

/-! ### Beginnings of a terminator -/

section Begins

variable {input more : Bytes} {n : Nat}

/-- The input ends with the first `n` bytes of a terminator, and not with all of it. -/
def Begins (input : Bytes) (n : Nat) : Prop := n < terminator.length ∧ terminator.take n <:+ input

/-- In a descending list the first number that passes a test is the largest. -/
theorem le_of_find? {test : Nat → Bool} {numbers : List Nat} {m : Nat}
    (hdescends : numbers.Pairwise (· > ·)) (h : numbers.find? test = some n) (hm : m ∈ numbers)
    (htest : test m) : m ≤ n := by
  obtain ⟨-, front, back, rfl, hfront⟩ := List.find?_eq_some_iff_append.1 h
  rcases List.mem_append.1 hm with hm | hm
  · have hfails := hfront m hm
    rw [htest] at hfails
    cases hfails
  · rcases List.mem_cons.1 hm with rfl | hm
    · exact Nat.le_refl _
    · have htail := (List.pairwise_append.1 hdescends).2.1
      exact Nat.le_of_lt ((List.pairwise_cons.1 htail).1 m hm)

/-- What is missing is the rest of the longest beginning. -/
theorem exists_longest_begins (input : Bytes) :
    ∃ n, missingTerminator input = terminator.length - n ∧ Begins input n ∧
      ∀ m, Begins input m → m ≤ n := by
  have hlength : terminator.length = 4 := rfl
  have hsmall : ∀ m, m ∈ [3, 2, 1] ↔ 0 < m ∧ m < terminator.length := by
    intro m
    simp only [List.mem_cons, List.not_mem_nil, or_false]
    omega
  unfold missingTerminator
  cases hbegun : [3, 2, 1].find? fun n => (terminator.take n).isSuffixOf input with
  | none =>
      refine ⟨0, rfl, ⟨by decide, List.nil_suffix⟩, fun m hm => Nat.le_of_not_lt fun hpos => ?_⟩
      exact List.find?_eq_none.1 hbegun m ((hsmall m).2 ⟨hpos, hm.1⟩)
        (List.isSuffixOf_iff_suffix.2 hm.2)
  | some n =>
      have hends := List.find?_some hbegun
      refine ⟨n, rfl, ⟨((hsmall n).1 (List.mem_of_find?_eq_some hbegun)).2,
        List.isSuffixOf_iff_suffix.1 hends⟩, fun m hm => ?_⟩
      rcases Nat.eq_zero_or_pos m with rfl | hpos
      · exact Nat.zero_le _
      · exact le_of_find? (by decide) hbegun ((hsmall m).2 ⟨hpos, hm.1⟩)
          (List.isSuffixOf_iff_suffix.2 hm.2)

/-- A terminator that more bytes complete begins in the input, and they are the rest of it at least. -/
theorem exists_begins_of_infix (habsent : ¬ terminator <:+: input)
    (h : terminator <:+: input ++ more) :
    ∃ n, Begins input n ∧ terminator.length ≤ n + more.length := by
  rcases List.infix_append_iff.1 h with h | h | ⟨front, back, hsplit, hfront, hback⟩
  · exact absurd h habsent
  · exact ⟨0, ⟨by decide, List.nil_suffix⟩, (Nat.zero_add more.length).symm ▸ h.length_le⟩
  · have hlength := congrArg List.length hsplit
    rw [List.length_append] at hlength
    refine ⟨front.length, ⟨?_, ?_⟩, hlength ▸ Nat.add_le_add_left hback.length_le _⟩
    · have hne : back ≠ [] := by
        rintro rfl
        rw [List.append_nil] at hsplit
        exact habsent (hsplit ▸ hfront.isInfix)
      have hpos := List.length_pos_iff.2 hne
      omega
    · rw [hsplit, List.take_left]
      exact hfront

theorem missingTerminator_le (habsent : ¬ terminator <:+: input)
    (h : terminator <:+: input ++ more) : missingTerminator input ≤ more.length := by
  obtain ⟨n, hn, -, hlongest⟩ := exists_longest_begins input
  obtain ⟨m, hm, hle⟩ := exists_begins_of_infix habsent h
  have hshorter := hlongest m hm
  omega

/-- The rest of the longest beginning completes a terminator, in front of which there is none. -/
theorem leads_of_missing (habsent : ¬ terminator <:+: input) (hbegins : Begins input n)
    (hmissing : missingTerminator input = terminator.length - n) :
    ∃ head, Leads head terminator (input ++ terminator.drop n) ∧ head.length + n = input.length := by
  have hlt := hbegins.1
  obtain ⟨head, rfl⟩ := hbegins.2
  have hwhole : head ++ terminator.take n ++ terminator.drop n = head ++ terminator := by
    rw [List.append_assoc, List.take_append_drop]
  have htake : (terminator.take n).length = n := List.length_take_of_le (Nat.le_of_lt hlt)
  refine ⟨head, ⟨hwhole ▸ List.prefix_refl _, fun {earlier} hearlier => ?_⟩, ?_⟩
  · -- An earlier terminator would be complete before all of the missing bytes are there.
    have hfront : earlier ++ terminator <+: head ++ terminator.take n ++
        (terminator.drop n).take (earlier.length + terminator.length - (head.length + n)) := by
      refine List.prefix_of_prefix_length_le hearlier
        (List.prefix_append_right_inj _ |>.2 (List.take_prefix _ _)) ?_
      have hle := hearlier.length_le
      simp only [List.length_append, htake, List.length_take, List.length_drop] at hle ⊢
      omega
    have hle := missingTerminator_le habsent (Bytes.occurs_iff.2 ⟨earlier, hfront⟩)
    rw [List.length_take] at hle
    omega
  · rw [List.length_append, htake]

end Begins

namespace Decoder

variable {d : Decoder} {r : Request} {input next : Bytes} {earlier : List Bytes}

/-! ### The decoder -/

/-- Prefixes of an input without a terminator, in whatever order they come, make the decoder leave out
nothing of its last three bytes. -/
theorem scanned_feed (habsent : ¬ terminator <:+: input) (hpre : ∀ a ∈ earlier, a <+: input)
    (hd : d.scanned ≤ input.length - (terminator.length - 1)) :
    (feed d r earlier).1.scanned ≤ input.length - (terminator.length - 1) := by
  induction earlier generalizing d r with
  | nil => exact hd
  | cons a later ih =>
      have ha := hpre a List.mem_cons_self
      refine ih (fun b hb => hpre b (List.mem_cons_of_mem _ hb)) ?_
      rw [decode_of_absent fun hin => habsent (hin.trans ha.isInfix)]
      exact Nat.sub_le_sub_right ha.length_le _

theorem searched_of_scanned_le (habsent : ¬ terminator <:+: input)
    (hd : d.scanned ≤ input.length - (terminator.length - 1)) (hnext : input <+: next) :
    d.Searched next := by
  intro before hbefore
  refine Nat.le_of_not_lt fun hlt => habsent (Bytes.occurs_iff.2 ⟨before, ?_⟩)
  apply List.prefix_of_prefix_length_le hbefore hnext
  have hterm : terminator.length = 4 := rfl
  simp only [List.length_append, hterm] at hd ⊢
  omega

theorem result_readHead (r : Request) (head : Bytes) :
    (readHead r head).result = .ok (.complete (head.length + terminator.length)) ∨
      ∃ fault, (readHead r head).result = .error fault := by
  simp only [readHead]
  split
  next fault _ => exact .inr ⟨fault, rfl⟩
  · split
    next o _ => exact .inr ⟨.capacityExceeded o, rfl⟩
    · exact .inl rfl

/-- **The decoder asks for what is missing.** An input without a terminator is incomplete by some number
of bytes, whatever prefixes of it the decoder was given before. No fewer bytes complete a terminator. As
many do, if they are the last ones of a terminator, and then the head is decoded. -/
theorem decode_missing (r : Request) (habsent : ¬ terminator <:+: input)
    (hpre : ∀ a ∈ earlier, a <+: input) :
    let before := feed {} r earlier
    ∃ n, (before.1.decode before.2 input).result = .ok (.incomplete n) ∧
      (∀ more : Bytes, more.length < n → ¬ terminator <:+: input ++ more) ∧
      ∃ last, last <:+ terminator ∧ last.length = n ∧ terminator <:+: input ++ last ∧
        ((before.1.decode before.2 (input ++ last)).result = .ok (.complete (input.length + n)) ∨
          ∃ fault, (before.1.decode before.2 (input ++ last)).result = .error fault) := by
  intro before
  obtain ⟨n, hmissing, hbegins, -⟩ := exists_longest_begins input
  obtain ⟨head, hhead, hlength⟩ := leads_of_missing habsent hbegins hmissing
  have hlt := hbegins.1
  have hsearched : before.1.Searched (input ++ terminator.drop n) :=
    searched_of_scanned_le habsent (scanned_feed habsent hpre (Nat.zero_le _))
      (List.prefix_append input _)
  refine ⟨missingTerminator input, ?_, fun more hmore hin => ?_, terminator.drop n,
    List.drop_suffix n _, ?_, ?_, ?_⟩
  · rw [decode_of_absent habsent]
  · exact Nat.not_le_of_lt hmore (missingTerminator_le habsent hin)
  · rw [List.length_drop, hmissing]
  · exact Bytes.occurs_iff.2 ⟨head, hhead.occurs⟩
  · have hconsumed : input.length + missingTerminator input = head.length + terminator.length := by
      omega
    rw [decode_of_leads hsearched hhead, hconsumed]
    exact result_readHead before.2 head

/-- An input that ends with three bytes of a terminator, the last of which may also be the first of one.
A part of it was seen before. -/
theorem decode_missing_one :
    let input : Bytes := 0x61 :: terminator.take 3
    let before := feed {} (.new {}) [input.take 3]
    ¬ terminator <:+: input ∧ (before.1.decode before.2 input).result = .ok (.incomplete 1) ∧
      ((before.1.decode before.2 (input ++ [Byte.lineFeed])).result = .ok (.complete 5) ∨
        ∃ fault, (before.1.decode before.2 (input ++ [Byte.lineFeed])).result = .error fault) := by
  intro input before
  have habsent : ¬ terminator <:+: input := by decide
  have hpre : ∀ a ∈ [input.take 3], a <+: input := by simp [List.take_prefix]
  obtain ⟨n, hincomplete, -, last, hsuffix, hlength, -, hanswer⟩ :=
    decode_missing (.new {}) habsent hpre
  have hone : n = 1 := by
    rw [decode_of_absent habsent] at hincomplete
    cases hincomplete
    rfl
  subst hone
  obtain rfl : last = [Byte.lineFeed] := by
    rw [List.suffix_iff_eq_drop.1 hsuffix, hlength]
    rfl
  exact ⟨habsent, hincomplete, hanswer⟩

end Decoder

end Intake.Request
