import Intake.Proofs.Bytes
import Intake.Proofs.Request.Reuse

/-!
# Heads that arrive in pieces

A connection delivers a head piece by piece, and the decoder is called with everything that has arrived
so far. It does not search again what it has searched before. What makes this sound is that it steps
back by three bytes, in which a terminator may have begun: `Searched` says that no terminator begins
in the part that is left out, and it survives every call whose input goes on from the one before.

So each call answers as a new decoder would, and the answer to a complete head depends on the head alone.
-/

namespace Intake.Request

open Bytes (Leads)

theorem decoder_readHead (r : Request) (head : Bytes) : (readHead r head).decoder = {} := by
  simp only [readHead]
  split
  · rfl
  · split <;> rfl

namespace Decoder

/-- No terminator starts in the part of the input that is not searched again. -/
def Searched (d : Decoder) (input : Bytes) : Prop :=
  ∀ before, before ++ terminator <+: input → d.scanned ≤ before.length

theorem searched_start (input : Bytes) : Searched {} input := fun _ _ => Nat.zero_le _

variable {d : Decoder} {r : Request} {input head : Bytes}

theorem decode_of_absent (h : ¬ terminator <:+: input) : d.decode r input =
    ⟨.ok (.incomplete (missingTerminator input)), ⟨input.length - (terminator.length - 1)⟩, r, []⟩ := by
  have hdrop : ¬ terminator <:+: input.drop (min d.scanned input.length) := fun hin =>
    h (hin.trans (List.drop_suffix _ _).isInfix)
  simp only [decode, Bytes.cut_of_absent hdrop]

theorem decode_of_leads (hd : d.Searched input) (h : Leads head terminator input) :
    d.decode r input = readHead r head := by
  have hscanned := hd head h.occurs
  obtain ⟨tail, rfl⟩ := h.occurs
  have hmin : min d.scanned (head ++ terminator ++ tail).length = d.scanned := by
    simp only [List.length_append]
    omega
  have htake : (head ++ terminator ++ tail).take head.length = head := by
    rw [List.append_assoc, List.take_left]
  obtain ⟨after, hcut⟩ := (h.drop hscanned).cut
  simp only [decode, hmin, hcut, List.length_drop, Nat.add_sub_cancel' hscanned, htake]

/-- The next input may have a terminator of which the last three bytes are new, but none that lies
further back. -/
theorem searched_decode (hd : d.Searched input) {next : Bytes} (hnext : input <+: next) :
    (d.decode r input).decoder.Searched next := by
  by_cases h : terminator <:+: input
  · obtain ⟨head, hhead⟩ := Bytes.exists_leads h
    rw [decode_of_leads hd hhead, decoder_readHead]
    exact searched_start next
  · rw [decode_of_absent h]
    intro before hbefore
    refine Nat.le_of_not_lt fun hlt => h (Bytes.occurs_iff.2 ⟨before, ?_⟩)
    apply List.prefix_of_prefix_length_le hbefore hnext
    have hterm : terminator.length = 4 := rfl
    simp only [List.length_append, hterm] at hlt ⊢
    omega

/-- The decoder and the request after some inputs. -/
def feed (d : Decoder) (r : Request) : List Bytes → Decoder × Request
  | [] => (d, r)
  | input :: later => feed (d.decode r input).decoder (d.decode r input).request later

theorem feed_induction {P : Request → Prop} (hstep : ∀ d r input, P r → P (decode d r input).request)
    (hr : P r) (inputs : List Bytes) : P (feed d r inputs).2 := by
  induction inputs generalizing d r with
  | nil => exact hr
  | cons input later ih => exact ih (hstep d r input hr)

theorem searched_feed {earlier : List Bytes} (hgrow : (earlier ++ [input]).Pairwise (· <+: ·))
    (hd : ∀ a ∈ earlier ++ [input], d.Searched a) : (feed d r earlier).1.Searched input := by
  induction earlier generalizing d r with
  | nil => exact hd input (List.mem_singleton.2 rfl)
  | cons first later ih =>
      rw [List.cons_append, List.pairwise_cons] at hgrow
      refine ih hgrow.2 fun a ha => ?_
      exact searched_decode (hd first (List.mem_cons_self ..)) (hgrow.1 a ha)

theorem feed_of_absent {inputs : List Bytes} (h : ∀ a ∈ inputs, ¬ terminator <:+: a) :
    (feed d r inputs).2 = r := by
  induction inputs generalizing d r with
  | nil => rfl
  | cons input later ih =>
      rw [feed, decode_of_absent (h input (List.mem_cons_self ..))]
      exact ih fun a ha => h a (List.mem_cons_of_mem _ ha)

theorem requestId_decode (d : Decoder) (r : Request) (input : Bytes) :
    (d.decode r input).request.requestId = r.requestId := by
  simp only [decode]
  split
  · rfl
  · rw [readHead_eq]
    rfl

theorem capacity_decode (d : Decoder) (r : Request) (input : Bytes) :
    (d.decode r input).request.arena.capacity = r.arena.capacity := by
  simp only [decode]
  split
  · rfl
  · exact capacity_readHead _ _

/-- However the first bytes of a connection arrive, a call that does not find the end of the head leaves
the request alone, and a call that finds it answers as a new decoder with a new request does, up to
the number of the caller. Nothing that follows the head changes the answer, and the decoder is as
good as new afterwards. -/
theorem decode_feed (r : Request) {whole input : Bytes} {earlier : List Bytes}
    (hpre : ∀ a ∈ earlier ++ [input], a <+: whole)
    (hgrow : (earlier ++ [input]).Pairwise fun a b => a.length ≤ b.length) :
    let before := feed {} r earlier
    let answer := before.1.decode before.2 input
    (¬ terminator <:+: input →
      answer.result = .ok (.incomplete (missingTerminator input)) ∧ answer.request = r) ∧
    (terminator <:+: input →
      answer = (decode {} r.blank input).relabel r.requestId ∧ answer.decoder = {} ∧
        ∃ head, Leads head terminator input ∧
          (∀ more, before.1.decode before.2 (head ++ terminator ++ more) = answer) ∧
          ∀ n, answer.result = .ok (.complete n) → n = head.length + 4) := by
  intro before answer
  have hchain : (earlier ++ [input]).Pairwise (· <+: ·) :=
    hgrow.imp_of_mem fun ha hb hle => List.prefix_of_prefix_length_le (hpre _ ha) (hpre _ hb) hle
  have hsearched : before.1.Searched input := searched_feed hchain fun a _ => searched_start a
  have hid : before.2.requestId = r.requestId :=
    feed_induction (fun d r input h => (requestId_decode d r input).trans h) rfl earlier
  have hcap : before.2.arena.capacity = r.arena.capacity :=
    feed_induction (P := (·.arena.capacity = r.arena.capacity))
      (fun d r input h => (capacity_decode d r input).trans h) rfl earlier
  constructor
  · intro hnone
    have hearlier : ∀ a ∈ earlier, ¬ terminator <:+: a := fun a ha hin =>
      hnone (hin.trans ((List.pairwise_append.1 hchain).2.2 a ha input
        (List.mem_singleton.2 rfl)).isInfix)
    have hbefore : before.2 = r := feed_of_absent hearlier
    simp only [answer, decode_of_absent hnone, hbefore, and_self]
  · intro hsome
    obtain ⟨head, hhead⟩ := Bytes.exists_leads hsome
    have hanswer : answer = readHead before.2 head := decode_of_leads hsearched hhead
    have hblank : before.2.blank = r.blank := by
      rw [blank, blank, hcap]
    refine ⟨?_, ?_, head, hhead, fun more => ?_, fun n hn => ?_⟩
    · rw [hanswer, readHead_eq, hblank, hid, decode_of_leads (searched_start input) hhead]
    · rw [hanswer, decoder_readHead]
    · rw [hanswer]
      refine decode_of_leads (fun shorter hshorter => ?_) (hhead.congr (List.prefix_append _ _))
      have hfirst := (hhead.congr (List.prefix_append _ more)).first hshorter
      exact Nat.le_trans (hsearched head hhead.occurs) hfirst
    · rw [hanswer] at hn
      exact consumed_of_readHead hn

/-- A terminator of which three bytes arrive late. -/
theorem decode_feed_split :
    let r : Request := { Request.new {} with requestId := 7 }
    let whole : Bytes := 0x61 :: terminator
    let before := feed {} r [whole.take 2]
    (decode {} r (whole.take 2)).request = r ∧
      before.1.decode before.2 whole = (decode {} r.blank whole).relabel 7 := by
  intro r whole before
  have hfirst : ∀ a ∈ [] ++ [whole.take 2], a <+: whole := by simp [List.take_prefix]
  have hboth : ∀ a ∈ [whole.take 2] ++ [whole], a <+: whole := by simp [List.take_prefix]
  have hshort := (decode_feed r hfirst (by simp)).1 fun h => absurd h.length_le (by decide)
  have hlong := (decode_feed r hboth (by decide)).2 ⟨[0x61], [], rfl⟩
  exact ⟨hshort.2, hlong.1⟩

end Decoder

end Intake.Request
