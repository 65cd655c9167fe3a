import Intake.Proofs.Request.Head

/-!
# Content lengths

The lines behind the first one of a head are searched for content lengths, and each of them has to be a
number. The first that is not makes the whole head faulty, whatever its other lines say, and the fault is
blamed on the place behind the colon of that line. When there is none, the last content length counts.

The offset of a line is that of all lines in front of it, each with its line end. It grows by as much
for a line without a colon, or with another name, as for one that gives a length.
-/

namespace Intake.Request

open Bytes (Leads lineEnd)

variable {head line value : Bytes} {headers : List Bytes} {offset length n : Nat}

/-! ### Header lines -/

/-- The value is a number that fits 32 bits, with nothing but blanks around it. -/
def Declares (n : Nat) (value : Bytes) : Prop :=
  ∃ left digits right, value = left ++ digits ++ right ∧ (∀ b ∈ left, Byte.isBlank b) ∧
    (∀ b ∈ right, Byte.isBlank b) ∧ Decimal.Spells n digits ∧ n < Decimal.unsignedBound

/-- A line that names the content length, in letters of either case, in front of its first colon. -/
structure LengthLine (line name value : Bytes) : Prop where
  parts : line = name ++ Byte.colon :: value
  first : Byte.colon ∉ name
  named : name.map Byte.toLower = Utf8.ofString "content-length"

/-- The line gives a content length. -/
def GivesLength (n : Nat) (line : Bytes) : Prop := ∃ name value, LengthLine line name value ∧ Declares n value

/-- The line names the content length, and then gives none. -/
def MalformedLength (line : Bytes) : Prop :=
  ∃ name value, LengthLine line name value ∧ ∀ n, ¬ Declares n value

/-- The content length that is given last, or `length` where none is given. -/
inductive LastLength (length : Nat) : List Bytes → Nat → Prop
  | none {headers : List Bytes} (h : ∀ line ∈ headers, ∀ n, ¬ GivesLength n line) :
      LastLength length headers length
  | given (earlier : List Bytes) {later : List Bytes} {line : Bytes} {n : Nat} (h : GivesLength n line)
      (hlater : ∀ line ∈ later, ∀ n, ¬ GivesLength n line) : LastLength length (earlier ++ line :: later) n

theorem isBlank_of_isDigit {b : UInt8} (h : Byte.isDigit b) : Byte.isBlank b = false := by
  refine Bool.eq_false_iff.2 fun hb => ?_
  simp only [Byte.isBlank, Byte.isSpace, Bool.or_eq_true, beq_iff_eq] at hb
  rcases hb with (((rfl | rfl) | rfl) | rfl) | rfl <;> exact absurd h (by decide)

theorem declares_iff : Declares n value ↔ Decimal.unsigned? value.trim = some n := by
  rw [Decimal.unsigned?_eq_some_iff]
  constructor
  · rintro ⟨left, digits, right, rfl, hleft, hright, hspells, hlt⟩
    rw [Bytes.trim_of_solid hleft hright hspells.1 fun b hb => isBlank_of_isDigit (hspells.2.1 b hb)]
    exact ⟨hspells, hlt⟩
  · rintro ⟨hspells, hlt⟩
    obtain ⟨left, right, hvalue, hleft, hright⟩ := Bytes.exists_trim value
    exact ⟨left, value.trim, right, hvalue, hleft, hright, hspells, hlt⟩

theorem lengthLine_iff {name : Bytes} : LengthLine line name value ↔
    line.cut [Byte.colon] = some (name, value) ∧ name.map Byte.toLower = contentLengthName := by
  rw [Bytes.cut_byte_eq_some_iff]
  exact ⟨fun h => ⟨⟨h.parts, h.first⟩, h.named⟩, fun h => ⟨h.1.1, h.1.2, h.2⟩⟩

/-! ### One line -/

section Line

variable {rest : List Bytes}

theorem readHeaders_given (h : GivesLength n line) :
    readHeaders offset length (line :: rest) =
      readHeaders (offset + line.length + lineEnd.length) n rest := by
  obtain ⟨name, value, hline, hdeclares⟩ := h
  obtain ⟨hcut, hname⟩ := lengthLine_iff.1 hline
  simp only [readHeaders, hcut, if_pos hname, declares_iff.1 hdeclares]

theorem readHeaders_malformed {name : Bytes} (h : LengthLine line name value)
    (hvalue : ∀ n, ¬ Declares n value) :
    readHeaders offset length (line :: rest) =
      (length, some (.invalidContentLength (offset + name.length + 1))) := by
  obtain ⟨hcut, hname⟩ := lengthLine_iff.1 h
  have hnone : Decimal.unsigned? value.trim = none :=
    Option.eq_none_iff_forall_ne_some.2 fun n hn => hvalue n (declares_iff.2 hn)
  simp only [readHeaders, hcut, if_pos hname, hnone]

theorem readHeaders_other (hgiven : ∀ n, ¬ GivesLength n line) (hmalformed : ¬ MalformedLength line) :
    readHeaders offset length (line :: rest) =
      readHeaders (offset + line.length + lineEnd.length) length rest := by
  have hother : ∀ name value, ¬ LengthLine line name value := fun name value h =>
    hmalformed ⟨name, value, h, fun n hn => hgiven n ⟨name, value, h, hn⟩⟩
  rw [readHeaders]
  cases hcut : line.cut [Byte.colon] with
  | none => rfl
  | some parts => exact if_neg fun hname => hother _ _ (lengthLine_iff.2 ⟨hcut, hname⟩)

/-- Behind a line that is not malformed the others are read, with the content length that it gives or with
the one from before. -/
theorem exists_readHeaders_cons (offset length : Nat) (rest : List Bytes)
    (hmalformed : ¬ MalformedLength line) :
    ∃ n, (n = length ∨ GivesLength n line) ∧ readHeaders offset length (line :: rest) =
      readHeaders (offset + line.length + lineEnd.length) n rest := by
  by_cases hgiven : ∃ n, GivesLength n line
  · obtain ⟨n, hn⟩ := hgiven
    exact ⟨n, .inr hn, readHeaders_given hn⟩
  · exact ⟨length, .inl rfl, readHeaders_other (fun n hn => hgiven ⟨n, hn⟩) hmalformed⟩

end Line

/-! ### All lines -/

theorem LastLength.cons (hgiven : ∀ n, ¬ GivesLength n line) (h : LastLength length headers n) :
    LastLength length (line :: headers) n := by
  cases h with
  | none hnone => exact .none (List.forall_mem_cons.2 ⟨hgiven, hnone⟩)
  | given earlier h hlater => exact .given (line :: earlier) h hlater

theorem LastLength.cons_given {m : Nat} (hgiven : GivesLength m line) (h : LastLength m headers n) :
    LastLength length (line :: headers) n := by
  cases h with
  | none hnone => exact .given [] hgiven hnone
  | given earlier h hlater => exact .given (line :: earlier) h hlater

theorem readHeaders_of_not_malformed (offset length : Nat)
    (h : ∀ line ∈ headers, ¬ MalformedLength line) :
    ∃ n, LastLength length headers n ∧ readHeaders offset length headers = (n, none) := by
  induction headers generalizing offset length with
  | nil => exact ⟨length, .none fun _ hmem => absurd hmem List.not_mem_nil, rfl⟩
  | cons line rest ih =>
      obtain ⟨hline, hrest⟩ := List.forall_mem_cons.1 h
      by_cases hgiven : ∃ m, GivesLength m line
      · obtain ⟨m, hm⟩ := hgiven
        obtain ⟨n, hlast, hread⟩ := ih _ _ hrest
        exact ⟨n, hlast.cons_given hm, (readHeaders_given hm).trans hread⟩
      · have hnone : ∀ m, ¬ GivesLength m line := fun m hm => hgiven ⟨m, hm⟩
        obtain ⟨n, hlast, hread⟩ := ih _ _ hrest
        exact ⟨n, hlast.cons hnone,
          (readHeaders_other hnone hline).trans hread⟩

/-- Where a line is malformed reading ends at the first such line, behind the lines in front of it. -/
theorem readHeaders_of_malformed (offset length : Nat) (h : ∃ line ∈ headers, MalformedLength line) :
    ∃ earlier bad later name value, headers = earlier ++ bad :: later ∧
      (∀ line ∈ earlier, ¬ MalformedLength line) ∧ LengthLine bad name value ∧ (∀ n, ¬ Declares n value) ∧
      (readHeaders offset length headers).2 = some (.invalidContentLength
        (offset + (earlier.flatMap (· ++ lineEnd)).length + name.length + 1)) := by
  induction headers generalizing offset length with
  | nil =>
      obtain ⟨line, hmem, -⟩ := h
      exact absurd hmem List.not_mem_nil
  | cons line rest ih =>
      by_cases hbad : MalformedLength line
      · obtain ⟨name, value, hline, hvalue⟩ := hbad
        refine ⟨[], line, rest, name, value, rfl, fun _ hmem => absurd hmem List.not_mem_nil, hline,
          hvalue, ?_⟩
        rw [readHeaders_malformed hline hvalue]
        rfl
      · obtain ⟨length', -, hread⟩ := exists_readHeaders_cons offset length rest hbad
        have hrest : ∃ other ∈ rest, MalformedLength other := by
          simp only [List.mem_cons, or_and_right, exists_or, exists_eq_left] at h
          exact h.resolve_left hbad
        obtain ⟨earlier, bad, later, name, value, rfl, hearlier, hline, hvalue, hfault⟩ := ih _ _ hrest
        refine ⟨line :: earlier, bad, later, name, value, rfl, List.forall_mem_cons.2 ⟨hbad, hearlier⟩,
          hline, hvalue, ?_⟩
        rw [hread, hfault, List.flatMap_cons, List.length_append, List.length_append]
        congr 2
        omega

/-! ### Heads -/

/-- A head that is made of these lines, the first of which is the request line. -/
structure HeadLines (head line : Bytes) (headers : List Bytes) : Prop where
  joined : lineEnd.intercalate (line :: headers) = head
  whole : ∀ part ∈ line :: headers, ¬ lineEnd <:+: part

theorem HeadLines.searched (h : HeadLines head line headers) :
    line = (headParts head).1 ∧ ∀ offset length,
      readHeaders offset length (headParts head).2.lines = readHeaders offset length headers := by
  have hlines : head.lines = line :: headers := by
    rw [← h.joined]
    exact Bytes.lines_intercalate (List.cons_ne_nil _ _) h.whole
  rw [Bytes.lines_eq] at hlines
  unfold headParts
  cases hcut : head.cut lineEnd with
  | some parts =>
      rw [hcut] at hlines
      obtain ⟨hline, hheaders⟩ := List.cons.inj hlines
      exact ⟨hline.symm, fun offset length => congrArg (readHeaders offset length) hheaders⟩
  | none =>
      rw [hcut] at hlines
      obtain ⟨hline, rfl⟩ := List.cons.inj hlines
      exact ⟨hline.symm, fun _ _ => rfl⟩

/-- The head begins with the lines in front of one that names the content length, and with that name. -/
theorem HeadLines.front_prefix {name bad : Bytes} {earlier later : List Bytes}
    (h : HeadLines head line (earlier ++ bad :: later)) (hbad : LengthLine bad name value) :
    (line :: earlier).flatMap (· ++ lineEnd) ++ (name ++ [Byte.colon]) <+: head := by
  have hbefore := Bytes.flatMap_append_prefix_intercalate lineEnd bad (line :: earlier) later
  rw [List.cons_append, h.joined] at hbefore
  have hname : name ++ [Byte.colon] <+: bad := ⟨value, by simp [hbad.parts]⟩
  exact ((List.prefix_append_right_inj _).2 hname).trans hbefore

/-- What the first line says does not change the content length. -/
theorem contentLength_readPairs (r : Request) (pairs : List (Bytes × Bytes)) :
    (readPairs r pairs).request.contentLength = r.contentLength := by
  fun_induction readPairs r pairs with
  | case1 => rfl
  | case2 r raw rest id _ ih => exact ih
  | case3 => rfl
  | case4 r key raw rest _ _ outcome ih => exact ih
  | case5 r key raw rest _ params arena _ ih => exact ih
  | case6 => rfl
  | case7 => rfl

theorem contentLength_readLine (r : Request) (line : Bytes) :
    (readLine r line).request.contentLength = r.contentLength := by
  unfold readLine
  split
  · rfl
  · dsimp only
    split
    · simp only [readTarget]
      split
      · rfl
      · split
        · exact contentLength_readPairs _ _
        · rfl
    · rfl

namespace Decoder

variable {d : Decoder} {r : Request} {input : Bytes}

/-- **Content lengths are read exactly.** If some content length of a head is malformed, the fault is that
of the first one, and the input up to its offset is made of the lines in front of that one and of its
name with the colon. Otherwise the request has the content length that was given last, or zero, and
the head is complete unless its first line runs out of room in the arena. -/
theorem decode_contentLength (hsearched : d.Searched input) (hhead : Leads head terminator input)
    (hlines : HeadLines head line headers) :
    let answer := d.decode r input
    ((∃ other ∈ headers, MalformedLength other) →
      ∃ earlier bad later name value offset, headers = earlier ++ bad :: later ∧
        (∀ other ∈ earlier, ¬ MalformedLength other) ∧ LengthLine bad name value ∧
        (∀ n, ¬ Declares n value) ∧ answer.result = .error (.invalidContentLength offset) ∧
        offset ≤ input.length ∧
        input.take offset = (line :: earlier).flatMap (· ++ lineEnd) ++ (name ++ [Byte.colon])) ∧
    ((∀ other ∈ headers, ¬ MalformedLength other) →
      ∃ n, LastLength 0 headers n ∧ answer.request.contentLength = n ∧
        (answer.result = .ok (.complete (head.length + 4)) ∨
          ∃ o, answer.result = .error (.capacityExceeded o) ∧
            (readLine { r.reset with contentLength := n } line).verdict = .overflow o)) := by
  intro answer
  have hanswer : answer = readHead r head := decode_of_leads hsearched hhead
  obtain ⟨rfl, hread⟩ := hlines.searched
  constructor
  · intro hmalformed
    obtain ⟨earlier, bad, later, name, value, rfl, hearlier, hbad, hvalue, hfault⟩ :=
      readHeaders_of_malformed ((headParts head).1.length + lineEnd.length) 0 hmalformed
    let front := ((headParts head).1 :: earlier).flatMap (· ++ lineEnd) ++ (name ++ [Byte.colon])
    have hinput : head <+: input := (List.prefix_append head terminator).trans hhead.occurs
    have hfront : front <+: input := (hlines.front_prefix hbad).trans hinput
    have hlength : (headParts head).1.length + lineEnd.length +
        (earlier.flatMap (· ++ lineEnd)).length + name.length + 1 = front.length := by
      simp only [front, List.flatMap_cons, List.length_append, List.length_singleton]
      omega
    rw [← hread, hlength] at hfault
    refine ⟨earlier, bad, later, name, value, front.length, rfl, hearlier, hbad, hvalue, ?_,
      hfront.length_le, (List.prefix_iff_eq_take.1 hfront).symm⟩
    rw [hanswer]
    exact readHead_of_fault r hfault
  · intro hgood
    obtain ⟨n, hlast, hend⟩ :=
      readHeaders_of_not_malformed ((headParts head).1.length + lineEnd.length) 0 hgood
    rw [← hread] at hend
    obtain ⟨hrequest, hresult⟩ := readHead_of_headers r hend
    have hlength := contentLength_readLine { r.reset with contentLength := n } (headParts head).1
    rw [← hrequest, ← hanswer] at hlength
    rw [← hanswer] at hresult
    refine ⟨n, hlast, hlength, ?_⟩
    cases hverdict : (readLine { r.reset with contentLength := n } (headParts head).1).verdict with
    | overflow o =>
        rw [hverdict] at hresult
        exact .inr ⟨o, hresult, rfl⟩
    | accepted | rejected reason =>
        rw [hverdict] at hresult
        exact .inl hresult

/-- A line without a colon, and a content length that is given twice. -/
theorem decode_contentLength_twice :
    let line := Utf8.ofString "GET / HTTP/1.1"
    let headers := [Utf8.ofString "Host", Utf8.ofString "Content-Length: 05",
      Utf8.ofString "CONTENT-length:\t7 "]
    let head : Bytes := lineEnd.intercalate (line :: headers)
    Leads head terminator (head ++ terminator) ∧ HeadLines head line headers ∧
      (decode {} (.new {}) (head ++ terminator)).request.contentLength = 7 ∧
      LastLength 0 headers 7 := by
  intro line headers head
  have hruns : (head ++ terminator).cut terminator = some (head, []) ∧
      (∀ part ∈ line :: headers, ¬ lineEnd <:+: part) ∧ (readHeaders 0 0 headers).2 = none ∧
      (decode {} (.new {}) (head ++ terminator)).request.contentLength = 7 := by decide +kernel
  obtain ⟨hcut, hwhole, hnone, hseven⟩ := hruns
  have hhead := Bytes.leads_of_cut hcut
  have hlines : HeadLines head line headers := ⟨rfl, hwhole⟩
  have hgood : ∀ other ∈ headers, ¬ MalformedLength other := by
    intro other hmem hother
    obtain ⟨_, _, _, _, _, -, -, -, -, hfault⟩ :=
      readHeaders_of_malformed 0 0 ⟨other, hmem, hother⟩
    cases hnone.symm.trans hfault
  obtain ⟨n, hlast, hlength, -⟩ :=
    (decode_contentLength (r := .new {}) (searched_start _) hhead hlines).2 hgood
  obtain rfl : n = 7 := hlength.symm.trans hseven
  exact ⟨hhead, hlines, hseven, hlast⟩

end Decoder

end Intake.Request
