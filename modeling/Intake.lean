import Intake.Stream
import Intake.Request.Pipeline
import Intake.Proofs.Record.Grammar.Decode
import Intake.Proofs.Record.Missing.Decode
import Intake.Proofs.Record.Meaning
import Intake.Proofs.Record.Insertion
import Intake.Proofs.Record.Layout
import Intake.Proofs.Request.Unknown
import Intake.Proofs.Request.Run
import Intake.Proofs.Stream.Run
import Intake.Proofs.Stream.Cut
import Intake.Proofs.Capacity
import Intake.Proofs.Record.Balance
import Intake.Proofs.Request.Connection
import Intake.Proofs.Checked.Decoders
import Intake.Proofs.Checked.Retry
import Intake.Proofs.Record.Surrogates
import Intake.Proofs.Request.Percent.Malformed
import Intake.Proofs.Request.Percent.Encoded
import Intake.Proofs.Request.Percent.Resumed
import Intake.Proofs.Stream.Resync
import Intake.Proofs.Record.Stack
import Intake.Proofs.Request.Lengths
import Intake.Proofs.Request.Terminator
import Intake.Proofs.Checked.InPlace
import Intake.Proofs.Arena.Resolve
import Intake.Proofs.Calendar
import Intake.Proofs.Record.Number
import Intake.Proofs.Request.Items
import Intake.Proofs.Request.Numbers
import Intake.Proofs.Text.Utf8.PrefixCode
import Intake.Proofs.Checked.GroupKeys
import Intake.Proofs.Record.Meaning.Escapes
