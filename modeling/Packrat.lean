import Packrat.CharClass
import Packrat.Grammar.Continuation
import Packrat.Grammar.Number
import Packrat.Input.Slice.Lemmas
import Packrat.Input.Text.Lemmas
import Packrat.Session
import Packrat.Text.Quoted.Lemmas
import Packrat.Proofs.Memory
import Packrat.Proofs.Consumption
import Packrat.Proofs.TextChars
import Packrat.Proofs.ByteChars
import Packrat.Proofs.Ahead
import Packrat.Proofs.Recognition
import Packrat.Proofs.Once
import Packrat.Proofs.Termination
import Packrat.Proofs.Labels
import Packrat.Proofs.Checked
import Packrat.Proofs.Cursors
import Packrat.Proofs.Stalls
import Packrat.Proofs.Integers
import Packrat.Proofs.Traces
import Packrat.Proofs.Repetition
import Packrat.Proofs.Results
import Packrat.Proofs.Unfolding
import Packrat.Proofs.Numerals
import Packrat.Proofs.Scanning
import Packrat.Proofs.Literals
import Packrat.Proofs.AnyCase
import Packrat.Proofs.Unrecorded
import Packrat.Proofs.Choices
import Packrat.Proofs.Locations
import Packrat.Proofs.InPlace
import Packrat.Proofs.Sequencing
import Packrat.Proofs.Encodings
import Packrat.Proofs.LossyText
