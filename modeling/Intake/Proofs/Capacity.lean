import Intake.Proofs.Record.Room
import Intake.Proofs.Request.Head

/-!
# Arenas that are large enough

An arena with room for the input as it is written has room for whatever is decoded from it, of a
record as of a request. So the longest input that is let in is a capacity that never has to be
refused.
-/

namespace Intake

namespace Request

variable {r : Request} {input head : Bytes} {o : Overflow}

theorem length_headParts_le (head : Bytes) : (headParts head).1.length ≤ head.length := by
  unfold headParts
  cases hcut : head.cut Bytes.lineEnd with
  | none => exact Nat.le_refl _
  | some parts =>
      have hlength := congrArg List.length (Bytes.eq_of_cut hcut)
      rw [List.length_append, List.length_append] at hlength
      show parts.1.length ≤ head.length
      omega

theorem readHead_ne_capacityExceeded (h : head.length ≤ r.arena.capacity) :
    (readHead r head).result ≠ .error (.capacityExceeded o) := by
  intro hresult
  by_cases hlengths : LengthsFit head
  · obtain ⟨n, outcome, hends, -, hverdict⟩ := readHead_of_lengthsFit r hlengths
    rw [hresult] at hverdict
    cases hends with
    | accepted => cases hverdict
    | rejected => cases hverdict
    | overflow hfull =>
        have hline := length_headParts_le head
        have hcapacity : r.arena.capacity < (headParts head).1.length := hfull
        omega
  · obtain ⟨offset, hfault⟩ := readHead_of_not_lengthsFit r hlengths
    cases hresult.symm.trans hfault

theorem decode_ne_capacityExceeded (d : Decoder) (h : input.length ≤ r.arena.capacity) :
    (d.decode r input).result ≠ .error (.capacityExceeded o) := by
  intro hresult
  rcases incomplete_or_exists_head d r input with ⟨missing, hmissing⟩ | ⟨head, hhead, hanswer⟩
  · cases hmissing.symm.trans hresult
  · have hlength := hhead.length_le
    rw [List.length_append] at hlength
    rw [hanswer] at hresult
    exact readHead_ne_capacityExceeded (by omega) hresult

end Request

/-- **An arena as large as the input is large enough.** Neither a record nor a request overflows it,
whatever was decoded before. Wherever a value of a record ends, the arena is not ahead of the input. -/
theorem capacity_suffices (input : Bytes) :
    (∀ (options : Options) (account : Account), input.length ≤ account.arena.capacity →
      (∀ o, (Record.decode options account input).result ≠ .error (.capacityExceeded o)) ∧
      ∀ s c, Record.Scan.ValueEnds options (Record.emptied account) (.start input) s c →
        s.arena.cursor ≤ c.pos) ∧
    ∀ (d : Request.Decoder) (r : Request), input.length ≤ r.arena.capacity →
      ∀ o, (d.decode r input).result ≠ .error (.capacityExceeded o) := by
  constructor
  · exact fun options account h => ⟨fun o => Record.decode_ne_capacityExceeded h,
      fun s c hend => (hend.room (Record.room_emptied h)).1⟩
  · exact fun d r h o => Request.decode_ne_capacityExceeded d h

open Record Record.Scan in
/-- An address of three bytes that is written with six. -/
theorem capacity_suffices_escape :
    let input := Utf8.ofString "\x7b\"email\":\"\\u20ac\"\x7d"
    let options : Options := { arenaCapacity := 18 }
    (∀ o, (Record.decode options (.new options) input).result ≠ .error (.capacityExceeded o)) ∧
      ∃ s c, ValueEnds options (emptied (.new options)) (.start input) s c ∧
        s.arena.cursor ≤ c.pos := by
  intro input options
  let string := Utf8.ofString "\"\\u20ac\""
  have hroom : input.length ≤ (Account.new options).arena.capacity := by decide +kernel
  have hopen : Record.expect Byte.openBrace (.start input) =
      .ok ((), (Cursor.start input).advance 1) := by decide +kernel
  have hspace : ((Cursor.start input).advance 1).skipSpace = (Cursor.start input).advance 1 := by
    decide +kernel
  have hkey : Record.rawString ((Cursor.start input).advance 1) =
      .ok (Field.key (.text .email), (Cursor.start input).advance 8) := by decide +kernel
  have hcolon : Record.expect Byte.colon ((Cursor.start input).advance 8) =
      .ok ((), (Cursor.start input).advance 9) := by decide +kernel
  have hbefore : MemberBegins (member options) (emptied (.new options)) (.start input)
      (Field.key (.text .email)) (emptied (.new options)) ((Cursor.start input).advance 9) :=
    .mk hopen (hspace.symm ▸ .first _ _) hkey hcolon
  have hunit : HexUnit 0x20AC (Utf8.ofString "20ac") := ⟨2, 0, 10, 12, by decide +kernel, rfl⟩
  have hquotes : Quotes true (Utf8.encode 0x20AC ++ []) string := by
    refine ⟨_, .unit hunit (fun _ h => absurd h (by decide)) .nil, ?_⟩
    decide +kernel
  have hrest : ((Cursor.start input).advance 9).skipSpace.skipSpace.rest =
      string ++ [Byte.closeBrace] := by decide +kernel
  have hstart : Room (emptied (.new options)) ((Cursor.start input).advance 9).skipSpace.skipSpace :=
    ((room_emptied hroom).forward (Cursor.reaches_advance _ (by decide +kernel))).forward
      ((Cursor.reaches_skipSpace _).trans (Cursor.reaches_skipSpace _))
  obtain ⟨s, hrun, -⟩ := undoes options (.text .email) hquotes hrest
    ⟨_, _, rfl, by decide⟩ hstart
  have hmember : ∃ d, (member options (Field.key (.text .email))).run (emptied (.new options))
      ((Cursor.start input).advance 9) = .ok () s d := by
    rw [member, ofName?_key]
    exact ⟨_, hrun⟩
  obtain ⟨d, hmember⟩ := hmember
  obtain ⟨hresult, hends⟩ := (capacity_suffices input).1 options (.new options) hroom
  exact ⟨hresult, s, d, .member hbefore hmember, hends s d (.member hbefore hmember)⟩

end Intake
