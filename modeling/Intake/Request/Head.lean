import Intake.Request.Headers
import Intake.Request.Line

/-!
# Request heads

A head is a request line and headers, up to a blank line. Nothing of it is read before the blank
line has arrived, and an input without one leaves the request as it is. The decoder remembers how
much of a growing input it has searched.

Headers are read before the request line, so a malformed length is a fault of every head. A request
line that asks for nothing known is no fault: the request is turned away.
-/

namespace Intake.Request

/-- The blank line, with the end of the line before it. -/
def terminator : Bytes := Bytes.lineEnd ++ Bytes.lineEnd

/-- How many bytes of the terminator are missing at the end of `input`. -/
def missingTerminator (input : Bytes) : Nat :=
  let begun := [3, 2, 1].find? fun n => (terminator.take n).isSuffixOf input
  terminator.length - begun.getD 0

/-- Decodes the heads that arrive on one connection. -/
structure Decoder where
  /-- How many bytes at the start of the input hold no start of a terminator. -/
  scanned : Nat := 0

/-- The answer of a decoder, and the decoder for the next call. -/
structure Decoded where
  result : Except Fault Progress
  decoder : Decoder
  request : Request
  events : List Event

/-- Reads a complete head into a request. -/
def readHead (r : Request) (head : Bytes) : Decoded :=
  let consumed := head.length + terminator.length
  let (line, headers) := (head.cut Bytes.lineEnd).getD (head, [])
  let (contentLength, fault) :=
    readHeaders (line.length + Bytes.lineEnd.length) 0 headers.lines
  let r := { r.reset with contentLength }
  match fault with
  | some fault => ⟨.error fault, {}, r, []⟩
  | none =>
    let outcome := readLine r line
    match outcome.verdict with
    | .overflow o => ⟨.error (.capacityExceeded o), {}, outcome.request, outcome.events⟩
    | _ =>
      ⟨.ok (.complete consumed), {}, outcome.request,
        outcome.events ++ [.decodedRequest outcome.request.endpoint consumed]⟩

/-- Decodes the head at the start of `input` into `r`. While the result is incomplete, the input of
the next call has to continue this one. -/
def Decoder.decode (d : Decoder) (r : Request) (input : Bytes) : Decoded :=
  let searched := min d.scanned input.length
  match Bytes.cut (input.drop searched) terminator with
  | none =>
    ⟨.ok (.incomplete (missingTerminator input)), ⟨input.length - (terminator.length - 1)⟩, r, []⟩
  | some (before, _) => readHead r (input.take (searched + before.length))

theorem consumed_of_readHead {r : Request} {head : Bytes} {consumed : Nat}
    (h : (readHead r head).result = .ok (.complete consumed)) :
    consumed = head.length + terminator.length := by
  simp only [readHead] at h
  split at h
  · cases h
  split at h
  · cases h
  · cases h
    rfl

theorem consumed_of_decode {d : Decoder} {r : Request} {input : Bytes} {consumed : Nat}
    (h : (d.decode r input).result = .ok (.complete consumed)) :
    0 < consumed ∧ consumed ≤ input.length := by
  simp only [Decoder.decode] at h
  split at h
  · cases h
  next before after hcut =>
    have hlen := congrArg List.length (Bytes.eq_of_cut hcut)
    have hterm : terminator.length = 4 := rfl
    have hpos := consumed_of_readHead h
    simp only [List.length_drop, List.length_append, List.length_take, hterm] at hlen hpos
    omega

end Intake.Request
