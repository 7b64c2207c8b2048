import Tetrad.Main
import Tetrad.Pattern.Report
import Tetrad.Proofs.Program.Disassembly
import Tetrad.Proofs.Word.Canonical
import Tetrad.Source.Token
import Tetrad.Proofs.Machine.Planning
import Tetrad.Proofs.Machine.Stepping
import Tetrad.Proofs.Machine.Failing
import Tetrad.Proofs.Machine.Reachable
import Tetrad.Proofs.Machine.Handlers
import Tetrad.Proofs.Machine.Loading
import Tetrad.Proofs.Program.Addresses
import Tetrad.Proofs.Machine.Following
import Tetrad.Proofs.Program.Layout
import Tetrad.Proofs.Program.Pulling
import Tetrad.Proofs.Program.Printing
import Tetrad.Proofs.Program.Reassembly
import Tetrad.Proofs.Source.Tokens
import Tetrad.Program.Scan
import Tetrad.Proofs.Program.Grammar
import Tetrad.Proofs.Program.Pointing
import Tetrad.Proofs.Program.Wording
import Tetrad.Proofs.Program.Joining
import Tetrad.Proofs.Machine.Obeying
import Tetrad.Proofs.Machine.Capturing
import Tetrad.Proofs.Machine.Forward
import Tetrad.Proofs.Machine.Repeating
import Tetrad.Proofs.Machine.Isolation
import Tetrad.Proofs.CommandLine.Session
import Tetrad.Proofs.Operand.Resolution
import Tetrad.Proofs.Operand.Exclusion
import Tetrad.Proofs.Machine.Status
import Tetrad.Proofs.Machine.Meaning
import Tetrad.Proofs.Machine.Addressing
import Tetrad.Proofs.Machine.Computing
import Tetrad.Proofs.Machine.Touching
import Tetrad.Proofs.Machine.Comparing
import Tetrad.Proofs.Machine.Blaming
import Tetrad.Proofs.Machine.Storing
import Tetrad.Proofs.Program.Listing
import Tetrad.Proofs.Program.Composing
import Tetrad.Proofs.Pattern.Searching
import Tetrad.Proofs.CommandLine.Caret
import Tetrad.Proofs.Pattern.Kinds
import Tetrad.Proofs.CommandLine.Symbols
import Tetrad.Proofs.CommandLine.Address
import Tetrad.Proofs.Word.Taking
