import Intake.Account
import Intake.Proofs.Bytes

/-!
# The words for sexes and statuses

A word is read as the value that it stands for, and no other word is read as one.
-/

namespace Intake

theorem Sex.ofCode?_code (sex : Sex) : Sex.ofCode? (Utf8.ofString sex.code) = some sex := by
  cases sex <;> decide

theorem Sex.ofCode?_eq_some_iff {bs : Bytes} {sex : Sex} :
    Sex.ofCode? bs = some sex ↔ bs = Utf8.ofString sex.code :=
  Bytes.find?_word_eq_some_iff Sex.ofCode?_code

theorem Status.ofLiteral?_literal (status : Status) :
    Status.ofLiteral? (Utf8.ofString status.literal) = some status := by
  cases status <;> decide

theorem Status.ofLiteral?_eq_some_iff {bs : Bytes} {status : Status} :
    Status.ofLiteral? bs = some status ↔ bs = Utf8.ofString status.literal :=
  Bytes.find?_word_eq_some_iff Status.ofLiteral?_literal

end Intake
