import Intake.Proofs.Arena.Run
import Intake.Proofs.Checked.Request
import Intake.Proofs.Checked.Stream

/-!
# No decoder traps

The decoders run on whatever arrives. What they rely on was written down where it is used: the loops of
the readers stay within the input, the depth of a nest stays below the width of its word, a code point
is no larger than its layout, a list of group keys no longer than its row, and an interest starts at
the last fencepost. So each decoder by position comes to its end on every input and from every state
that was reached before, and what it returns is what the decoder returns.
-/

namespace Intake.Checked

open Request

/-- Records are decoded into any account, requests by any decoder into any request, and records of a
stream after any calls on it. Quoted texts and encoded values are read from any position, also one
behind the input, into an arena after any writes to it, and brackets are balanced from any position. -/
theorem decoders_run (options : Options) (input : Bytes) :
    (∀ account, decodeRecord options account input = .ok (Record.decode options account input)) ∧
      (∀ capacity actions p combineSurrogates,
        quoted combineSurrogates input (Arena.run capacity actions) p =
          .ok (settled (Arena.run capacity actions)
            (Record.Quoted.decode combineSurrogates (Arena.run capacity actions) (.within input p)))) ∧
      (∀ capacity actions p, url input (Arena.run capacity actions) p =
        .ok (Percent.decode (Arena.run capacity actions) (.within input p))) ∧
      (∀ decoder request, decodeRequest decoder request input =
        .ok (decoder.decode request input)) ∧
      (∀ calls account, next input ((Stream.new options input).run calls).stream account =
        .ok (((Stream.new options input).run calls).stream.next account)) ∧
      ∀ p, balancedEnd? input 0 p =
        .ok ((Stream.balancedEnd? 0 (.within input p)).map Cursor.pos) := by
  refine ⟨fun account => decodeRecord_eq options account input, ?_, ?_, ?_, ?_, ?_⟩
  · intro capacity actions p combineSurrogates
    exact quoted_eq combineSurrogates input (Arena.fits_run capacity actions) p
  · intro capacity actions p
    exact url_eq input (Arena.fits_run capacity actions) p
  · intro decoder request
    exact decodeRequest_eq decoder request input
  · intro calls account
    exact next_eq (Stream.journey_run (Stream.within_new options input) calls).2 account
  · exact balancedEnd?_eq input 0

end Intake.Checked
