import Intake.Proofs.Request.Feed
import Intake.Proofs.Request.Line

/-!
# What reading a head comes to

Every head has a first line, which is what stands in front of the first line end of the input, and
later lines, of which only those with a content length are looked at. When these fit, the first line
decides what becomes of the request.
-/

namespace Intake.Request

open Bytes (Leads LaterLine lineEnd)

/-! ### The first line -/

variable {r : Request} {input head line : Bytes}

/-- The line that is read, and what is searched for headers. -/
def headParts (head : Bytes) : Bytes × Bytes := (head.cut lineEnd).getD (head, [])

theorem leads_line (h : head ++ terminator <+: input) : Leads (headParts head).1 lineEnd input := by
  obtain ⟨rest, rfl⟩ := h
  have hspec := Bytes.cut_spec head lineEnd
  unfold headParts
  cases hcut : head.cut lineEnd with
  | some parts =>
      rw [hcut] at hspec
      refine hspec.congr (hspec.occurs.trans ?_)
      rw [List.append_assoc]
      exact List.prefix_append _ _
  | none =>
      rw [hcut] at hspec
      have hleads := Bytes.leads_lineEnd hspec (lineEnd ++ rest)
      rw [terminator, List.append_assoc, List.append_assoc]
      exact hleads

/-! ### The content length -/

/-- All content lengths in a head are numbers that fit 32 bits. -/
def LengthsFit (head : Bytes) : Prop :=
  ∀ name value : Bytes, Byte.colon ∉ name → LaterLine head (name ++ Byte.colon :: value) →
    name.map Byte.toLower = Utf8.ofString "content-length" →
      ∃ n, Decimal.Spells n value.trim ∧ n < Decimal.unsignedBound

theorem readHeaders_snd_eq_none_iff {offset length : Nat} {lines : List Bytes} :
    (readHeaders offset length lines).2 = none ↔
      ∀ line ∈ lines, ∀ name value : Bytes, Bytes.cut line [Byte.colon] = some (name, value) →
        name.map Byte.toLower = contentLengthName → (Decimal.unsigned? value.trim).isSome := by
  induction lines generalizing offset length with
  | nil => exact ⟨fun _ _ h => absurd h List.not_mem_nil, fun _ => rfl⟩
  | cons line rest ih =>
      rw [List.forall_mem_cons]
      unfold readHeaders
      dsimp only
      split
      next hcut =>
        rw [ih, hcut]
        refine ⟨fun h => ⟨fun _ _ hsome => ?_, h⟩, fun h => h.2⟩
        cases hsome
      next name value hcut =>
        rw [hcut]
        split
        next hname =>
          split
          next n hn =>
            rw [ih]
            refine ⟨fun h => ⟨fun _ _ hsome _ => ?_, h⟩, fun h => h.2⟩
            cases hsome
            rw [hn]
            rfl
          next hn =>
            refine ⟨fun h => (by cases h), fun h => ?_⟩
            have hsome := h.1 name value rfl hname
            rw [hn] at hsome
            cases hsome
        next hname =>
          rw [ih]
          refine ⟨fun h => ⟨fun _ _ hsome hother => ?_, h⟩, fun h => h.2⟩
          cases hsome
          exact absurd hother hname

/-- Headers are at fault for nothing else than a content length. -/
theorem exists_offset_of_readHeaders {offset length : Nat} {lines : List Bytes} {fault : Fault}
    (h : (readHeaders offset length lines).2 = some fault) :
    ∃ blamed, fault = .invalidContentLength blamed := by
  induction lines generalizing offset length with
  | nil => cases h
  | cons line rest ih =>
      unfold readHeaders at h
      dsimp only at h
      split at h
      · exact ih h
      next name value _ =>
        split at h
        · split at h
          · exact ih h
          · cases h
            exact ⟨offset + name.length + 1, rfl⟩
        · exact ih h

/-- A line with a colon is searched for a content length just when a line end stands in front of it. -/
theorem mem_lines_headParts_iff {parts : Bytes × Bytes} (hcolon : line.cut [Byte.colon] = some parts) :
    line ∈ (headParts head).2.lines ↔ LaterLine head line := by
  rw [Bytes.laterLine_iff, Bytes.lines_eq head, headParts]
  cases hcut : head.cut lineEnd with
  | some parts => rfl
  | none =>
      refine ⟨fun h => ?_, fun h => absurd h List.not_mem_nil⟩
      rw [List.mem_singleton.1 h] at hcolon
      cases hcolon

/-- The headers are read to their end just when the content lengths fit. -/
theorem lengthsFit_iff (offset length : Nat) :
    LengthsFit head ↔ (readHeaders offset length (headParts head).2.lines).2 = none := by
  rw [readHeaders_snd_eq_none_iff]
  constructor
  · intro h line hmem name value hcut hname
    obtain ⟨rfl, hcolon⟩ := Bytes.cut_byte_eq_some_iff.1 hcut
    obtain ⟨n, hn⟩ := h name value hcolon ((mem_lines_headParts_iff hcut).1 hmem) hname
    rw [Decimal.unsigned?_eq_some_iff.2 hn]
    rfl
  · intro h name value hcolon hlater hname
    have hcut : (name ++ Byte.colon :: value).cut [Byte.colon] = some (name, value) :=
      Bytes.cut_byte_eq_some_iff.2 ⟨rfl, hcolon⟩
    obtain ⟨n, hn⟩ := Option.isSome_iff_exists.1
      (h _ ((mem_lines_headParts_iff hcut).2 hlater) name value hcut hname)
    exact ⟨n, Decimal.unsigned?_eq_some_iff.1 hn⟩

/-! ### The whole head -/

/-- The result for a head whose first line was read with this verdict. -/
def Verdict.result (consumed : Nat) : Verdict → Except Fault Progress
  | .overflow o => .error (.capacityExceeded o)
  | .accepted | .rejected _ => .ok (.complete consumed)

section Headers

variable {n : Nat} {fault : Fault}

theorem readHead_of_headers (r : Request)
    (h : readHeaders ((headParts head).1.length + lineEnd.length) 0 (headParts head).2.lines =
      (n, none)) :
    (readHead r head).request =
        (readLine { r.reset with contentLength := n } (headParts head).1).request ∧
      (readHead r head).result = (readLine { r.reset with contentLength := n }
        (headParts head).1).verdict.result (head.length + terminator.length) := by
  have hparts : (head.cut lineEnd).getD (head, []) = headParts head := rfl
  simp only [readHead, hparts, h]
  generalize readLine { r.reset with contentLength := n } (headParts head).1 = outcome
  obtain ⟨verdict, request, unknown⟩ := outcome
  cases verdict <;> exact ⟨rfl, rfl⟩

theorem readHead_of_fault (r : Request)
    (h : (readHeaders ((headParts head).1.length + lineEnd.length) 0 (headParts head).2.lines).2 =
      some fault) : (readHead r head).result = .error fault := by
  have hparts : (head.cut lineEnd).getD (head, []) = headParts head := rfl
  simp only [readHead, hparts, h]

end Headers

/-- When the content lengths fit, the answer is that of the first line. -/
theorem readHead_of_lengthsFit (r : Request) (h : LengthsFit head) :
    ∃ n outcome, LineEnds { r.reset with contentLength := n } (headParts head).1 outcome ∧
      (readHead r head).request = outcome.request ∧
      (readHead r head).result = outcome.verdict.result (head.length + terminator.length) := by
  have hheaders := (lengthsFit_iff ((headParts head).1.length + lineEnd.length) 0).1 h
  generalize hread : readHeaders ((headParts head).1.length + lineEnd.length) 0
    (headParts head).2.lines = headers at hheaders
  obtain ⟨n, fault⟩ := headers
  cases hheaders
  exact ⟨n, _, ends_readLine rfl rfl (headParts head).1, readHead_of_headers r hread⟩

theorem readHead_of_not_lengthsFit (r : Request) (h : ¬ LengthsFit head) :
    ∃ offset, (readHead r head).result = .error (.invalidContentLength offset) := by
  rw [lengthsFit_iff ((headParts head).1.length + lineEnd.length) 0] at h
  obtain ⟨fault, hfault⟩ := Option.ne_none_iff_exists'.1 h
  obtain ⟨offset, rfl⟩ := exists_offset_of_readHeaders hfault
  exact ⟨offset, readHead_of_fault r hfault⟩

theorem lengthsFit_of_complete {n : Nat} (h : (readHead r head).result = .ok (.complete n)) :
    LengthsFit head := by
  refine Classical.byContradiction fun hnot => ?_
  obtain ⟨fault, hfault⟩ := readHead_of_not_lengthsFit r hnot
  rw [hfault] at h
  cases h

/-- Whatever a decoder has searched before, it asks for more or answers to some head of the input. -/
theorem incomplete_or_exists_head (d : Decoder) (r : Request) (input : Bytes) :
    (∃ missing, (d.decode r input).result = .ok (.incomplete missing)) ∨
      ∃ head, head ++ terminator <+: input ∧ d.decode r input = readHead r head := by
  simp only [Decoder.decode]
  split
  next hcut => exact .inl ⟨_, rfl⟩
  next before after hcut =>
    let searched := min d.scanned input.length
    have hinput : input = input.take searched ++ before ++ (terminator ++ after) := by
      rw [List.append_assoc, ← List.append_assoc before, ← Bytes.eq_of_cut hcut,
        List.take_append_drop]
    have hlength : (input.take searched ++ before).length = searched + before.length := by
      rw [List.length_append, List.length_take, Nat.min_eq_left (Nat.min_le_right _ _)]
    have hhead : input.take (searched + before.length) = input.take searched ++ before :=
      (congrArg (List.take _) hinput).trans (List.take_left' hlength)
    refine .inr ⟨input.take (searched + before.length), ⟨after, ?_⟩, rfl⟩
    rw [hhead, List.append_assoc, ← hinput]

/-- A decoder that asks for more leaves the request as it was. -/
theorem request_of_incomplete {d : Decoder} {missing : Nat}
    (h : (d.decode r input).result = .ok (.incomplete missing)) : (d.decode r input).request = r := by
  simp only [Decoder.decode] at h ⊢
  split at h
  next hcut => rfl
  next before after hcut =>
    simp only [readHead] at h
    split at h
    · cases h
    · split at h <;> cases h

theorem exists_head {d : Decoder} {n : Nat} (h : (d.decode r input).result = .ok (.complete n)) :
    ∃ head, head ++ terminator <+: input ∧ d.decode r input = readHead r head := by
  refine (incomplete_or_exists_head d r input).resolve_left ?_
  rintro ⟨missing, hmissing⟩
  cases hmissing.symm.trans h

end Intake.Request
