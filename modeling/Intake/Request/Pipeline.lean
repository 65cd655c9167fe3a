import Intake.Request.Head

/-!
# Pipelines

Requests that follow each other on one connection, each with the body that its head announces.
-/

namespace Intake.Request

/-- One head of a row of requests: the input from its start on, and its answer. -/
structure Arrival where
  input : Bytes
  decoded : Decoded

/-- Decodes one request after the other, passing over the body of each, up to the first that is not
complete or the end of the input. -/
def pipeline (d : Decoder) (r : Request) (input : Bytes) : List Arrival :=
  if input = [] then []
  else
    let decoded := d.decode r input
    ⟨input, decoded⟩ ::
      match h : decoded.result with
      | .ok (.complete consumed) =>
        have := consumed_of_decode h
        pipeline decoded.decoder decoded.request
          (input.drop (consumed + decoded.request.contentLength))
      | _ => []
termination_by input.length
decreasing_by
  simp only [List.length_drop]
  omega

end Intake.Request
