import Intake.Proofs.Stream.Records

/-!
# Files that are cut off

A file may end anywhere, within an escape or a number as well as between two records. Up to the cut it
is the file that it would have been, so the records in front of the cut are met as ever. Of a record
that the cut goes through the decoder asks for more, and the stream ends there; no other place makes a
difference, since a record that has not begun is not missed.
-/

namespace Intake.Stream

open Record (IsObject Json Sealed decode decode_isObject decode_congr)

/-! ### Where the records lie -/

/-- A record and the stretch of the file that it fills. -/
structure Placed where
  record : Bytes
  span : Span

/-- The records of a list that begins at `start`. -/
def placed (start : Nat) : List (Bytes × Bytes) → List Placed
  | [] => []
  | (record, separator) :: records =>
    ⟨record, ⟨start, record.length⟩⟩ :: placed (start + record.length + separator.length) records

/-- The records that lie in the first `k` bytes as a whole. -/
def kept (k : Nat) (places : List Placed) : List Bytes :=
  (places.filter (·.span.stop ≤ k)).map (·.record)

/-- The first `k` bytes end strictly within a record. -/
def Severs (k : Nat) (places : List Placed) : Prop :=
  ∃ p ∈ places, p.span.offset < k ∧ k < p.span.stop

instance (k : Nat) (places : List Placed) : Decidable (Severs k places) :=
  inferInstanceAs (Decidable (∃ p ∈ places, p.span.offset < k ∧ k < p.span.stop))

section Placed

variable {start k : Nat} {record separator : Bytes} {records : List (Bytes × Bytes)} {p : Placed}

theorem le_offset_of_mem_placed (h : p ∈ placed start records) : start ≤ p.span.offset := by
  induction records generalizing start with
  | nil => exact absurd h List.not_mem_nil
  | cons first records ih =>
      rcases List.mem_cons.1 h with rfl | h
      · exact Nat.le_refl start
      · have hle := ih h
        omega

theorem offset_lt_stop_of_mem_placed (hne : ∀ r ∈ records, r.1 ≠ []) (h : p ∈ placed start records) :
    p.span.offset < p.span.stop := by
  induction records generalizing start with
  | nil => exact absurd h List.not_mem_nil
  | cons first records ih =>
      rcases List.mem_cons.1 h with rfl | h
      · exact Nat.lt_add_of_pos_right (List.length_pos_iff.2 (hne first List.mem_cons_self))
      · exact ih (fun r hr => hne r (List.mem_cons_of_mem _ hr)) h

theorem kept_eq_nil_iff {places : List Placed} :
    kept k places = [] ↔ ∀ p ∈ places, k < p.span.stop := by
  rw [kept, List.map_eq_nil_iff, List.filter_eq_nil_iff]
  simp only [decide_eq_true_eq, Nat.not_le]

theorem kept_of_le (hne : ∀ r ∈ records, r.1 ≠ []) (hk : k ≤ start) :
    kept k (placed start records) = [] ∧ ¬ Severs k (placed start records) := by
  have hfar : ∀ p ∈ placed start records, k ≤ p.span.offset ∧ p.span.offset < p.span.stop :=
    fun p hp => ⟨Nat.le_trans hk (le_offset_of_mem_placed hp), offset_lt_stop_of_mem_placed hne hp⟩
  refine ⟨kept_eq_nil_iff.2 fun p hp => ?_, ?_⟩
  · have hbound := hfar p hp
    omega
  · rintro ⟨p, hp, hbefore, -⟩
    have hbound := hfar p hp
    omega

theorem kept_of_severed (hne : ∀ r ∈ records, r.1 ≠ []) (hstart : start < k)
    (hk : k < start + record.length) :
    kept k (placed start ((record, separator) :: records)) = [] ∧
      Severs k (placed start ((record, separator) :: records)) := by
  refine ⟨kept_eq_nil_iff.2 fun p hp => ?_, _, List.mem_cons_self, hstart, hk⟩
  rcases List.mem_cons.1 hp with rfl | hp
  · exact hk
  · have hle := le_offset_of_mem_placed hp
    have hlt := offset_lt_stop_of_mem_placed hne hp
    omega

theorem kept_of_behind (hk : start + record.length ≤ k) :
    kept k (placed start ((record, separator) :: records)) =
        record :: kept k (placed (start + record.length + separator.length) records) ∧
      (Severs k (placed start ((record, separator) :: records)) ↔
        Severs k (placed (start + record.length + separator.length) records)) := by
  constructor
  · simp only [kept, placed]
    rw [List.filter_cons_of_pos (by exact decide_eq_true hk), List.map_cons]
  · simp only [Severs, placed, List.mem_cons, or_and_right, exists_or, exists_eq_left]
    refine or_iff_right fun hcut => ?_
    have hstop : k < start + record.length := hcut.2
    omega

end Placed

/-! ### What calls yield -/

/-- The calls yield these records, each as it is decoded alone, and then no item at all. At the end the
stream is truncated if `cut` says so. -/
structure Yields (s : Stream) (account : Account) (records : List Bytes) (cut : Prop) : Prop where
  item : ∀ i (hi : i < records.length), (s.call account i).item = some .decoded ∧
    (s.call account i).account = (decode s.options account records[i]).account
  ended : ∀ i, records.length ≤ i → (s.call account i).item = none
  truncated : ∀ i, records.length ≤ i → ((s.call account i).stream.truncated ↔ cut)
  counts : ∀ i, records.length ≤ i → (s.call account i).stream.decoded = s.decoded + records.length ∧
    (s.call account i).stream.skipped = s.skipped

variable {s : Stream} {account : Account} {cut : Prop}

theorem yields_of_seek?_eq_none (hs : s.truncated = false) (h : seek? s.cursor = none)
    (hcut : ¬ cut) : Yields s account [] cut := by
  have hcall := call_of_seek?_eq_none account hs h
  constructor
  case item => exact fun i hi => absurd hi (Nat.not_lt_zero i)
  case ended =>
    intro i _
    rw [hcall]
  case truncated =>
    intro i _
    rw [hcall]
    exact iff_of_false (ne_true_of_eq_false hs) hcut
  case counts =>
    intro i _
    rw [hcall]
    exact ⟨rfl, rfl⟩

theorem call_of_truncated (account : Account) (hs : s.truncated) (i : Nat) :
    s.call account i = ⟨none, s, account, []⟩ := by
  have hnext : s.next account = ⟨none, s, account, []⟩ := by rw [next, if_pos hs]
  induction i with
  | zero => exact hnext
  | succ i ih =>
      rw [call, hnext]
      exact ih

/-- A record that the input cuts off. -/
theorem yields_of_incomplete {record : Cursor} {missing : Nat} (hs : s.truncated = false)
    (hseek : seek? s.cursor = some record)
    (hdecode : (decode s.options account record.rest).result = .ok (.incomplete missing))
    (hcut : cut) : Yields s account [] cut := by
  let after : Stream := { s with cursor := s.cursor.toEnd, truncated := true }
  have hcall (i : Nat) : (s.call account i).item = none ∧ (s.call account i).stream = after := by
    have hnext : (s.next account).item = none ∧ (s.next account).stream = after := by
      simp only [next, hs, Bool.false_eq_true, if_false, hseek, hdecode, after, and_self]
    cases i with
    | zero => exact hnext
    | succ i =>
        rw [call, hnext.2, call_of_truncated _ rfl]
        exact ⟨rfl, rfl⟩
  constructor
  case item => exact fun i hi => absurd hi (Nat.not_lt_zero i)
  case ended => exact fun i _ => (hcall i).1
  case truncated =>
    intro i _
    rw [(hcall i).2]
    exact iff_of_true rfl hcut
  case counts =>
    intro i _
    rw [(hcall i).2]
    exact ⟨rfl, rfl⟩

/-- A record that is whole, in front of what further calls yield. -/
theorem Yields.cons {record : Bytes} {records : List Bytes}
    (hitem : (s.next account).item = some .decoded)
    (haccount : (s.next account).account = (decode s.options account record).account)
    (hoptions : (s.next account).stream.options = s.options)
    (hdecoded : (s.next account).stream.decoded = s.decoded + 1)
    (hskipped : (s.next account).stream.skipped = s.skipped)
    (h : Yields (s.next account).stream (s.next account).account records cut) :
    Yields s account (record :: records) cut := by
  -- The account that is handed on has another content than the first one, but the same capacity.
  have hcongr (bytes : Bytes) :
      decode s.options (s.next account).account bytes = decode s.options account bytes :=
    decode_congr s.options (haccount ▸ Record.capacity_decode s.options account record) bytes
  have hlater {i : Nat} (hi : (record :: records).length ≤ i) :
      ∃ j, i = j + 1 ∧ records.length ≤ j := by
    rw [List.length_cons] at hi
    exact ⟨i - 1, by omega, by omega⟩
  constructor
  case item =>
    intro i hi
    cases i with
    | zero => exact ⟨hitem, haccount⟩
    | succ i =>
        have hrest := h.item i (Nat.lt_of_succ_lt_succ hi)
        rw [hoptions, hcongr] at hrest
        exact hrest
  case ended =>
    intro i hi
    obtain ⟨j, rfl, hj⟩ := hlater hi
    exact h.ended j hj
  case truncated =>
    intro i hi
    obtain ⟨j, rfl, hj⟩ := hlater hi
    exact h.truncated j hj
  case counts =>
    intro i hi
    obtain ⟨j, rfl, hj⟩ := hlater hi
    obtain ⟨hdecoded', hskipped'⟩ := h.counts j hj
    refine ⟨hdecoded'.trans ?_, hskipped'.trans hskipped⟩
    rw [hdecoded, List.length_cons]
    omega

/-! ### Cuts -/

theorem seek?_of_separator_nil (h : Separator s.cursor.rest) : seek? s.cursor = none := by
  have hskip : s.cursor.rest.dropWhile (fun b => b != Byte.openBrace && b != Byte.closeSquare) = [] := by
    rw [← List.append_nil s.cursor.rest, List.dropWhile_append_of_pos fun b hb => by simpa using h b hb]
    rfl
  simp only [seek?, Cursor.skipWhile, hskip]

theorem Separator.take {separator : Bytes} (h : Separator separator) (n : Nat) :
    Separator (separator.take n) := fun b hb => h b (List.mem_of_mem_take hb)

theorem seek?_of_closed {separator rest : Bytes} {n : Nat} (hsep : Separator separator)
    (hc : s.cursor.rest = (separator ++ Byte.closeSquare :: rest).take n) : seek? s.cursor = none := by
  rcases Nat.lt_or_ge separator.length n with hlt | hle
  · obtain ⟨m, rfl⟩ := Nat.exists_eq_add_of_lt hlt
    rw [Nat.add_assoc, List.take_length_add_append] at hc
    exact (seek?_of_separator hsep (.inr rfl) hc).trans rfl
  · rw [List.take_append_of_le_length hle] at hc
    exact seek?_of_separator_nil (hc ▸ hsep.take n)

section Record

variable {separator record rest : Bytes} {n : Nat}

theorem ne_nil_of_isObject (h : IsObject record) : record ≠ [] := by
  obtain ⟨tail, rfl⟩ := Record.exists_cons_of_isObject h
  exact List.cons_ne_nil _ _

/-- An object that decodes on its own fills all of its bytes. -/
theorem complete_of_isObject {options : Options} (hrecord : IsObject record)
    (hcomplete : ∃ m, (decode options account record).result = .ok (.complete m)) :
    (decode options account record).result = .ok (.complete record.length) := by
  obtain ⟨m, hm⟩ := hcomplete
  rcases (decode_isObject options account hrecord []).2 with hresult | ⟨fault, hresult⟩
  · exact hresult
  · cases hm.symm.trans hresult

/-- A cut through a record ends the stream. -/
theorem yields_of_severed (hs : s.truncated = false) (hsep : Separator separator)
    (hrecord : IsObject record)
    (hcomplete : (decode s.options account record).result = .ok (.complete record.length))
    (hc : s.cursor.rest = separator ++ record.take n) (hpos : 0 < n) (hn : n < record.length)
    (hcut : cut) : Yields s account [] cut := by
  obtain ⟨tail, rfl⟩ := Record.exists_cons_of_isObject hrecord
  obtain ⟨m, rfl⟩ := Nat.exists_eq_succ_of_ne_zero (Nat.ne_of_gt hpos)
  have hseek := (seek?_of_separator hsep (.inl rfl) hc).trans (if_pos rfl)
  have hall : decode s.options account (Byte.openBrace :: tail) =
      ⟨.ok (.complete (Byte.openBrace :: tail).length),
        (decode s.options account (Byte.openBrace :: tail)).account⟩ := by
    rw [← hcomplete]
  have htake : (Byte.openBrace :: tail).take (Byte.openBrace :: tail).length = Byte.openBrace :: tail :=
    List.take_length
  obtain ⟨missing, -, hmissing⟩ := Record.incomplete_of_prefix
    (p := (Byte.openBrace :: tail).take (m + 1)) hall (htake.symm ▸ List.take_prefix _ _) fun heq => by
      have hlength := congrArg List.length heq
      rw [htake, List.length_take] at hlength
      omega
  rw [← Cursor.rest_advance hc] at hmissing
  exact yields_of_incomplete hs hseek hmissing hcut

theorem yields_of_isObject {records : List Bytes} (hs : s.truncated = false)
    (hsep : Separator separator) (hrecord : IsObject record)
    (hcomplete : (decode s.options account record).result = .ok (.complete record.length))
    (hc : s.cursor.rest = separator ++ (record ++ rest))
    (h : ∀ t b, t.options = s.options → t.truncated = false → t.cursor.rest = rest →
      b.arena.capacity = account.arena.capacity → Yields t b records cut) :
    Yields s account (record :: records) cut := by
  obtain ⟨hitem, haccount, hstream⟩ := next_of_isObject account hs hsep hrecord hc
  have hof : Item.of (decode s.options account record) = .decoded := by
    rw [Item.of, hcomplete]
  rw [hof] at hitem hstream
  have hoptions : (s.next account).stream.options = s.options := by rw [hstream]
  have hdecoded : (s.next account).stream.decoded = s.decoded + 1 := by
    rw [hstream]
    rfl
  have hskipped : (s.next account).stream.skipped = s.skipped := by
    rw [hstream]
    rfl
  have htruncated : (s.next account).stream.truncated = false := by
    rw [hstream]
    exact hs
  have hrest : (s.next account).stream.cursor.rest = rest := by
    rw [hstream]
    exact Cursor.rest_advance (Cursor.rest_advance hc)
  have hcap : (s.next account).account.arena.capacity = account.arena.capacity :=
    haccount ▸ Record.capacity_decode s.options account record
  exact Yields.cons hitem haccount hoptions hdecoded hskipped
    (h _ _ hoptions htruncated hrest hcap)

end Record

/-- The records in front of the cut are yielded, wherever it is. The first of them has `separator` in
front of it, which begins at `start`, and `n` more bytes are there. -/
theorem yields_listing {start n : Nat} {separator rest : Bytes} {records : List (Bytes × Bytes)}
    (hs : s.truncated = false) (hsep : Separator separator)
    (hrecords : ∀ r ∈ records, IsObject r.1 ∧ Separator r.2 ∧
      ∃ m, (decode s.options account r.1).result = .ok (.complete m))
    (hc : s.cursor.rest = (separator ++ (listing records ++ Byte.closeSquare :: rest)).take n) :
    Yields s account (kept (start + n) (placed (start + separator.length) records))
      (Severs (start + n) (placed (start + separator.length) records)) := by
  induction records generalizing s account start n separator with
  | nil =>
      refine yields_of_seek?_eq_none hs (seek?_of_closed hsep hc) ?_
      rintro ⟨p, hp, -⟩
      exact absurd hp List.not_mem_nil
  | cons first records ih =>
      obtain ⟨record, after⟩ := first
      have hne : ∀ r ∈ (record, after) :: records, r.1 ≠ [] := fun r hr =>
        ne_nil_of_isObject (hrecords r hr).1
      obtain ⟨hfirst, hlater⟩ := List.forall_mem_cons.1 hrecords
      have hrecord : IsObject record := hfirst.1
      have hcomplete := complete_of_isObject hrecord hfirst.2.2
      have hlisting : listing ((record, after) :: records) ++ Byte.closeSquare :: rest =
          record ++ (after ++ (listing records ++ Byte.closeSquare :: rest)) := by
        simp [listing]
      rw [hlisting] at hc
      rcases Nat.lt_or_ge separator.length n with hlt | hle
      case inr =>
        -- The cut is in front of the record.
        rw [List.take_append_of_le_length hle] at hc
        obtain ⟨hkept, hcut⟩ := kept_of_le hne (Nat.add_le_add_left hle start)
        rw [hkept]
        exact yields_of_seek?_eq_none hs (seek?_of_separator_nil (hc ▸ hsep.take n)) hcut
      obtain ⟨m, rfl⟩ := Nat.exists_eq_add_of_lt hlt
      rw [Nat.add_assoc separator.length m 1] at hc ⊢
      rw [List.take_length_add_append] at hc
      rcases Nat.lt_or_ge (m + 1) record.length with hin | hout
      case inl =>
        rw [List.take_append_of_le_length (Nat.le_of_lt hin)] at hc
        obtain ⟨hkept, hcut⟩ : kept (start + (separator.length + (m + 1)))
              (placed (start + separator.length) ((record, after) :: records)) = [] ∧
            Severs (start + (separator.length + (m + 1)))
              (placed (start + separator.length) ((record, after) :: records)) :=
          kept_of_severed (fun r hr => hne r (List.mem_cons_of_mem _ hr)) (by omega) (by omega)
        rw [hkept]
        exact yields_of_severed hs hsep hrecord hcomplete hc (Nat.succ_pos m) hin hcut
      case inr =>
        obtain ⟨l, hl⟩ := Nat.exists_eq_add_of_le hout
        rw [hl, List.take_length_add_append] at hc
        have hplace : start + separator.length + record.length ≤ start + (separator.length + (m + 1)) := by
          omega
        obtain ⟨hkept, hcut⟩ := kept_of_behind hplace
        rw [hkept, hcut]
        refine yields_of_isObject hs hsep hrecord hcomplete hc fun t b hoptions ht hrest hcap => ?_
        have hbehind : start + (separator.length + (m + 1)) =
            start + separator.length + record.length + l := by omega
        rw [hbehind]
        refine ih ht hfirst.2.1 (fun r hr => ?_) hrest
        rw [hoptions, decode_congr _ hcap]
        exact hlater r hr

/-! ### Whole files -/

section New

variable (options : Options) {before : Bytes} (hbefore : Byte.openSquare ∉ before)
include hbefore

theorem pass_of_not_mem : ∀ b ∈ before, (b != Byte.openSquare) = true := by
  intro b hb
  have hne : b ≠ Byte.openSquare := fun h => hbefore (h ▸ hb)
  simpa using hne

theorem rest_new (rest : Bytes) : (new options (before ++ Byte.openSquare :: rest)).cursor.rest = rest := by
  have hskip : (Cursor.start (before ++ Byte.openSquare :: rest)).skipWhile (· != Byte.openSquare) =
      (Cursor.start (before ++ Byte.openSquare :: rest)).advance before.length :=
    Cursor.skipWhile_of_append (pass_of_not_mem hbefore) (by decide) rfl
  have hrest : ((Cursor.start (before ++ Byte.openSquare :: rest)).advance before.length).rest =
      Byte.openSquare :: rest := Cursor.rest_advance rfl
  simp only [new, hskip, hrest, if_neg (List.cons_ne_nil _ _), Cursor.advance_rest,
    List.drop_succ_cons, List.drop_zero]

/-- Where no array begins, no record is looked for. -/
theorem seek?_new : seek? (new options before).cursor = none := by
  have hskip : ((Cursor.start before).skipWhile (· != Byte.openSquare)).rest = [] := by
    show before.dropWhile (· != Byte.openSquare) = []
    rw [← List.append_nil before, List.dropWhile_append_of_pos (pass_of_not_mem hbefore)]
    rfl
  have hcursor : (new options before).cursor =
      (Cursor.start before).skipWhile (· != Byte.openSquare) := if_pos hskip
  apply seek?_of_separator_nil
  rw [hcursor, hskip]
  exact fun b hb => absurd hb List.not_mem_nil

end New

/-- **A file that is cut off loses the record that is cut, and no other.** Of a file that lists objects
which decode, with its end cut off anywhere, the calls yield the objects that are still whole, as they
are decoded alone. None is skipped, and the stream is truncated just when the cut goes through an object. -/
theorem call_cut (options : Options) (account : Account) {before separator after : Bytes}
    {records : List (Bytes × Bytes)} (hbefore : Byte.openSquare ∉ before)
    (hsep : Separator separator) (hrecords : ∀ r ∈ records, IsObject r.1 ∧ Separator r.2 ∧
      ∃ m, (decode options account r.1).result = .ok (.complete m)) (k : Nat) :
    let file := before ++ Byte.openSquare ::
      (separator ++ (listing records ++ Byte.closeSquare :: after))
    let places := placed (before.length + 1 + separator.length) records
    Yields (new options (file.take k)) account (kept k places) (Severs k places) := by
  intro file places
  rcases Nat.lt_or_ge before.length k with hlt | hle
  case inl =>
    obtain ⟨n, rfl⟩ := Nat.exists_eq_add_of_lt hlt
    have hfile : file.take (before.length + n + 1) = before ++ Byte.openSquare ::
        (separator ++ (listing records ++ Byte.closeSquare :: after)).take n := by
      rw [Nat.add_assoc, List.take_length_add_append, List.take_succ_cons]
    have hplace : before.length + n + 1 = before.length + 1 + n := Nat.add_right_comm ..
    rw [hfile, hplace]
    exact yields_listing rfl hsep hrecords (rest_new options hbefore _)
  case inr =>
    have hne : ∀ r ∈ records, r.1 ≠ [] := fun r hr => ne_nil_of_isObject (hrecords r hr).1
    have hfront : k ≤ before.length + 1 + separator.length := by omega
    obtain ⟨hkept, hcut⟩ := kept_of_le hne hfront
    have hfile : file.take k = before.take k := List.take_append_of_le_length hle
    rw [hkept, hfile]
    exact yields_of_seek?_eq_none rfl
      (seek?_new options fun hmem => hbefore (List.mem_of_mem_take hmem)) hcut

/-- A file of two objects that ends within the second one, or behind it. -/
theorem call_cut_pair :
    let file := Utf8.ofString "[\x7b\x7d,\x7b\"id\":7\x7d]"
    let severed := new {} (file.take 10)
    let whole := new {} (file.take 12)
    let account := Account.new {}
    ((severed.call account 0).item = some .decoded ∧ (severed.call account 1).item = none ∧
      (severed.call account 1).stream.truncated) ∧
    (whole.call account 1).item = some .decoded ∧ (whole.call account 2).item = none ∧
      ¬ (whole.call account 2).stream.truncated := by
  intro file severed whole account
  have hempty : Json (.list .brace) 1 (Byte.openBrace :: ([] ++ [Byte.closeBrace])) :=
    .empty .brace .nil
  have hkey : Sealed [0x69, 0x64] :=
    .plain (by decide) (by decide) (.plain (by decide) (by decide) .nil)
  have hvalue : Json (.item .square) 0 ([] ++ (Utf8.ofString "7" ++ [])) :=
    .element .nil (.word (by decide)) .nil
  have hmember : Json (.item .brace) 0 ([] ++ Byte.quote :: ([0x69, 0x64] ++ Byte.quote ::
      ([] ++ Byte.colon :: ([] ++ (Utf8.ofString "7" ++ []))))) := .member .nil hkey .nil hvalue
  have hcomma : Separator [Byte.comma] := List.forall_mem_singleton.2 (by decide)
  have hsep : Separator [] := fun _ hb => absurd hb List.not_mem_nil
  let records : List (Bytes × Bytes) :=
    [([Byte.openBrace, Byte.closeBrace], [Byte.comma]), (Utf8.ofString "\x7b\"id\":7\x7d", [])]
  have hrecords : ∀ r ∈ records, IsObject r.1 ∧ Separator r.2 ∧
      ∃ m, (decode {} account r.1).result = .ok (.complete m) := by
    simp only [records, List.forall_mem_cons, List.not_mem_nil, false_imp_iff, implies_true, and_true]
    exact ⟨⟨⟨1, hempty⟩, hcomma, 2, by decide +kernel⟩,
      ⟨1, .full (.last hmember)⟩, hsep, 8, by decide +kernel⟩
  have hbefore : Byte.openSquare ∉ ([] : Bytes) := List.not_mem_nil
  have hfile : [] ++ Byte.openSquare :: ([] ++ (listing records ++ Byte.closeSquare :: [])) = file := by
    decide
  have hcut (k : Nat) :
      Yields (new {} (file.take k)) account (kept k (placed 1 records)) (Severs k (placed 1 records)) :=
    hfile ▸ call_cut {} account hbefore hsep hrecords k
  have hsevered : Yields severed account (kept 10 (placed 1 records)) (Severs 10 (placed 1 records)) :=
    hcut 10
  have hwhole : Yields whole account (kept 12 (placed 1 records)) (Severs 12 (placed 1 records)) :=
    hcut 12
  have hone : (kept 10 (placed 1 records)).length = 1 := by decide
  have htwo : (kept 12 (placed 1 records)).length = 2 := by decide
  have hthrough : Severs 10 (placed 1 records) := by decide
  have hbehind : ¬ Severs 12 (placed 1 records) := by decide
  exact ⟨⟨(hsevered.item 0 (by omega)).1, hsevered.ended 1 (by omega),
    (hsevered.truncated 1 (by omega)).2 hthrough⟩, (hwhole.item 1 (by omega)).1,
    hwhole.ended 2 (by omega), fun h => hbehind ((hwhole.truncated 2 (by omega)).1 h)⟩

end Intake.Stream
