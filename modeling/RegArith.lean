import RegArith.CommandLine.Run
import RegArith.Main
import RegArith.Proofs.Language.Blame
import RegArith.Proofs.Machine.Leftovers
import RegArith.Session
import RegArith.Proofs.Language.Canonical
import RegArith.Proofs.Parsing.Failures
import RegArith.Proofs.Language.Concatenation
import RegArith.Proofs.Language.Numbering
import RegArith.Proofs.Assembly.Relabelling
import RegArith.Proofs.Session.Allocation
import RegArith.Proofs.Parsing.Alignment
import RegArith.Proofs.Parsing.Shift
import RegArith.Proofs.Parsing.Algebra
import RegArith.Proofs.Parsing.Depth
import RegArith.Proofs.Parsing.Reuse
import RegArith.Proofs.Session.Labelling
import RegArith.Proofs.CommandLine.AllOrNothing
import RegArith.Proofs.Machine.Signed
import RegArith.Proofs.Machine.Fragment
import RegArith.Proofs.Assembly.Range
import RegArith.Proofs.Parsing.Repetition
import RegArith.Proofs.Parsing.Sweep
import RegArith.Proofs.Text.Caret
import RegArith.Proofs.Text.Pointer
import RegArith.Proofs.Assembly.Decoding
import RegArith.Proofs.Assembly.Appending
import RegArith.Proofs.Parsing.Lookahead
import RegArith.Proofs.Assembly.Size
import RegArith.Proofs.Parsing.Characters
