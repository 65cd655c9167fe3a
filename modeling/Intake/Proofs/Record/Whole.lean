import Intake.Proofs.Record.Json
import Intake.Proofs.Record.Steady.Decode

/-!
# Whole objects

An object is scanned from its opening brace to its closing one, whatever follows. So the decoder never
asks for more behind a whole object, its answer does not depend on what follows, and a record that is
complete ends where the object ends.
-/

namespace Intake.Record

open Intake.Stream (opens closes balancedEnd? balancedEnd?_cons)

theorem balancedEnd?_of_scans {stop c : Cursor} {inWord : Bool} {n : Nat}
    (h : Scans stop inWord n c) (hn : 0 < n) : balancedEnd? n c = some stop := by
  induction h with
  | done => omega
  | enter hc hb h ih => rw [balancedEnd?_cons hc, if_pos hb, ih (Nat.succ_pos _)]
  | @leave _ n _ _ _ hc hb h ih =>
      rw [balancedEnd?_cons hc, if_neg (not_opens_of_closes hb), if_pos hb]
      cases n with
      | zero =>
          rw [if_pos (Nat.le_refl 1), h.eq_stop]
      | succ n =>
          rw [if_neg (by omega)]
          exact ih (Nat.succ_pos n)
  | string hc hq h ih => exact (balancedEnd?_string _ hc hq).trans (ih hn)
  | gap hc hb _ h ih | letter hc hb _ h ih => exact (balancedEnd?_inert _ hc hb).trans (ih hn)

/-! ### Crossing a text -/

/-- To cross `bs` it is enough to go on behind it. `x` and `y` say whether this happens within a word
before and after. -/
def Crosses (x y : Bool) (bs : Bytes) : Prop :=
  ∀ ⦃stop n c rest⦄, c.rest = bs ++ rest → Scans stop y (n + 1) (c.advance bs.length) →
    Scans stop x (n + 1) c

namespace Crosses

variable {x y z : Bool} {bs ts : Bytes}

theorem relax (h : Crosses x y bs) : Crosses false y bs := fun _ _ _ _ hc hs => (h hc hs).relax

theorem append (h : Crosses x y bs) (ht : Crosses y z ts) : Crosses x z (bs ++ ts) := by
  intro stop n c rest hc hs
  rw [List.append_assoc] at hc
  apply h hc
  apply ht (Cursor.rest_advance hc)
  rw [Cursor.advance_advance, ← List.length_append]
  exact hs

theorem nil : Crosses x x [] := fun _ _ _ _ _ hs => hs

theorem cons {b : UInt8} (h : Crosses x y [b]) (ht : Crosses y z ts) : Crosses x z (b :: ts) :=
  h.append ht

theorem byte {b : UInt8} (hb : isInert b) : Crosses x (!endsWord b) [b] := by
  intro stop n c rest hc hs
  cases hends : endsWord b with
  | true =>
      rw [hends] at hs
      exact .gap hc hb hends hs
  | false =>
      rw [hends] at hs
      exact .letter hc hb hends hs

theorem separator {b : UInt8} (hb : isInert b) (hends : endsWord b = true) : Crosses x y [b] := by
  intro stop n c rest hc hs
  exact .gap hc hb hends hs.relax

theorem gap (h : Gap bs) : Crosses x x bs := by
  induction bs with
  | nil => exact nil
  | cons b rest ih =>
      have hb := h b (List.mem_cons_self ..)
      have hends : endsWord b = true := by simp [endsWord, hb]
      exact cons (separator (isInert_of_isSpace hb) hends) <|
        ih fun b hb => h b (List.mem_cons_of_mem _ hb)

theorem word (h : Word bs) : Crosses false true bs := by
  obtain ⟨-, hletters⟩ := h
  suffices Crosses true true bs from this.relax
  induction bs with
  | nil => exact nil
  | cons b rest ih =>
      obtain ⟨hends, hopen⟩ := hletters b (List.mem_cons_self ..)
      have hb := byte (x := true) (isInert_of_letter hends (by simp [hopen]))
      rw [hends] at hb
      exact cons hb (ih fun b hb => hletters b (List.mem_cons_of_mem _ hb))

theorem string (h : Sealed bs) : Crosses x y (Byte.quote :: (bs ++ [Byte.quote])) := by
  intro stop n c rest hc hs
  have hcons : c.rest = Byte.quote :: (bs ++ Byte.quote :: rest) := by
    rw [hc, List.cons_append, List.append_assoc]
    rfl
  have hclose : closingQuote? 0 (bs ++ Byte.quote :: rest) = some bs.length := by
    rw [closingQuote?_of_sealed h, Nat.zero_add]
  apply Scans.string hcons hclose
  simpa using hs.relax

theorem within {bracket : Bracket} (h : Crosses false true bs) {stop c : Cursor} {rest : Bytes} {n : Nat}
    (hc : c.rest = bracket.opening :: (bs ++ [bracket.closing]) ++ rest)
    (hs : Scans stop false n (c.advance (bs.length + 2))) : Scans stop false (n + 1) (c.advance 1) := by
  rw [List.cons_append, List.append_assoc] at hc
  have hin : (c.advance 1).rest = bs ++ bracket.closing :: rest := Cursor.rest_advance_one hc
  apply h hin
  apply Scans.leave (Cursor.rest_advance hin) bracket.closes_closing
  rw [Cursor.advance_advance, Cursor.advance_advance, Nat.add_comm 1]
  exact hs

theorem list {bracket : Bracket} (h : Crosses false true bs) :
    Crosses false true (bracket.opening :: (bs ++ [bracket.closing])) := by
  intro stop n c rest hc hs
  refine .enter hc bracket.opens_opening (h.within hc ?_)
  simpa using hs.relax

theorem json {shape : Shape} {d : Nat} (h : Json shape d bs) : Crosses false true bs := by
  induction h with
  | word h => exact word h
  | string h => exact string h
  | nested _ ih => exact ih
  | empty bracket h => exact list ((gap h).relax)
  | full _ ih => exact list ih
  | last _ ih => exact ih
  | more _ _ ih ihrest => exact ih.append (cons (separator rfl rfl) ihrest)
  | element hbefore _ hafter ih => exact (gap hbefore).append (ih.append (gap hafter))
  | member hbefore hkey hafter _ ih =>
      apply (gap hbefore).append
      have hcolon : Crosses true false [Byte.colon] := separator rfl rfl
      have hvalue := (gap hafter).append (hcolon.cons ih)
      have hmember := (string (x := false) hkey).append hvalue
      simpa using hmember

end Crosses

/-! ### Objects -/

variable {bs rest : Bytes} {c : Cursor}

theorem exists_cons_of_isObject (h : IsObject bs) :
    ∃ tail, bs = Byte.openBrace :: tail := by
  obtain ⟨n, h⟩ := h
  cases h with
  | empty | full => exact ⟨_, rfl⟩

/-- From just past its opening brace an object leads to its end. -/
theorem scans_of_isObject (h : IsObject bs) (hc : c.rest = bs ++ rest) :
    Scans (c.advance bs.length) false 1 (c.advance 1) := by
  obtain ⟨n, h⟩ := h
  have hend : ∀ inner : Bytes, c.advance (inner.length + 2) =
      c.advance (Bracket.brace.opening :: (inner ++ [Bracket.brace.closing])).length := by
    intro inner
    simp
  cases h with
  | empty _ h => exact (Crosses.gap (x := true) h).relax.within hc (hend _ ▸ .done)
  | full h => exact (Crosses.json h).within hc (hend _ ▸ .done)

/-- The end of an object is where its brackets are balanced. -/
theorem balancedEnd?_of_isObject (h : IsObject bs) (hc : c.rest = bs ++ rest) :
    balancedEnd? 0 c = some (c.advance bs.length) := by
  obtain ⟨tail, htail⟩ := exists_cons_of_isObject h
  have hopen : opens Byte.openBrace := by decide
  have hcons : c.rest = Byte.openBrace :: (tail ++ rest) := by
    rw [hc, htail, List.cons_append]
  rw [balancedEnd?_cons hcons, if_pos hopen]
  exact balancedEnd?_of_scans (scans_of_isObject h hc) Nat.one_pos

theorem Scan.record_run (options : Options) (s : Account) {tail : Bytes}
    (hc : c.rest = Byte.openBrace :: tail) : (Scan.record options).run s c =
      (Scan.list Byte.closeBrace (Scan.keyed (Scan.member options))).run s (c.advance 1) := by
  have hspace : c.skipSpace = c := Cursor.skipWhile_of_neg hc rfl
  have hexpect : Record.expect Byte.openBrace c = .ok ((), c.advance 1) := by
    rw [expect_of_cons (hspace ▸ hc), if_pos rfl, hspace]
  simp only [Scan.record, Scan.members, Scan.run_bind, Scan.expect, Scan.read, hexpect]
  rfl

/-- If the bracket that opens a record is closed further on, the decoder needs nothing behind that place.
A record that is complete ends where the fence has been left. -/
theorem decode_of_inside {F : Fence} (options : Options) (account : Account) {tail : Bytes}
    (hin : F.inside 1 ⟨1, tail⟩) (more : Bytes) :
    decode options account (Byte.openBrace :: tail ++ more) =
        decode options account (Byte.openBrace :: tail) ∧
      ((∃ after, F.inside 0 after ∧
          (decode options account (Byte.openBrace :: tail)).result = .ok (.complete after.pos)) ∨
        ∃ fault, (decode options account (Byte.openBrace :: tail)).result = .error fault) := by
  let body : Cursor := ⟨1, tail⟩
  have hsteady : Scan.Steady F 1 0 (Scan.list Byte.closeBrace (Scan.keyed (Scan.member options))) :=
    Scan.steady_list (by decide) (Scan.steady_keyed (Scan.steady_member options))
  have hs := hsteady (emptied account) body
  have hrun : ∀ more, decode options account (Byte.openBrace :: tail ++ more) =
      ((Scan.list Byte.closeBrace (Scan.keyed (Scan.member options))).run (emptied account)
        (body.append more)).decoded := fun more => by
    have hstart : (Cursor.start (Byte.openBrace :: (tail ++ more))).rest =
        Byte.openBrace :: (tail ++ more) := rfl
    rw [decode_eq, List.cons_append, Scan.record_run options _ hstart]
    rfl
  have hbare := hrun []
  rw [List.append_nil, Cursor.append_nil] at hbare
  rw [hrun, hbare]
  generalize (Scan.list Byte.closeBrace (Scan.keyed (Scan.member options))).run (emptied account) body =
    reply at hs ⊢
  cases hs with
  | @ok _ _ after hmore hstop =>
      rw [hmore more]
      exact ⟨rfl, .inl ⟨after, hstop 0 hin, rfl⟩⟩
  | incomplete hpos hout => exact absurd hin (hout 0)
  | fault hmore =>
      obtain ⟨e', he', -, hsame⟩ := hmore more
      rw [he', hsame 0 hin]
      exact ⟨rfl, .inr ⟨_, rfl⟩⟩

/-- The decoder needs nothing behind a whole object, and a record ends where its object ends. -/
theorem decode_isObject (options : Options) (account : Account) (h : IsObject bs) (more : Bytes) :
    decode options account (bs ++ more) = decode options account bs ∧
      ((decode options account bs).result = .ok (.complete bs.length) ∨
        ∃ fault, (decode options account bs).result = .error fault) := by
  obtain ⟨tail, rfl⟩ := exists_cons_of_isObject h
  let stop : Cursor := (Cursor.start (Byte.openBrace :: tail)).advance (Byte.openBrace :: tail).length
  have hin : (Fence.until stop).inside 1 ⟨1, tail⟩ :=
    scans_of_isObject (c := .start (Byte.openBrace :: tail)) h (List.append_nil _).symm
  obtain ⟨hmore, hresult⟩ := decode_of_inside options account hin more
  refine ⟨hmore, hresult.imp_left ?_⟩
  rintro ⟨after, hstop, hcomplete⟩
  have hafter : after = stop := Scans.eq_stop hstop
  have hpos : after.pos = (Byte.openBrace :: tail).length := by
    rw [hafter]
    exact Nat.zero_add _
  rw [← hpos]
  exact hcomplete

end Intake.Record
