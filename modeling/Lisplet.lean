import Lisplet.Fault.Make
import Lisplet.Server
import Lisplet.Proofs.BigStep
import Lisplet.Proofs.Run
import Lisplet.Proofs.Preservation
import Lisplet.Proofs.Adequacy
import Lisplet.Proofs.Grammar
import Lisplet.Proofs.Numerals
import Lisplet.Proofs.ReadBack
import Lisplet.Proofs.Reading
import Lisplet.Proofs.Answers
import Lisplet.Proofs.Limits
import Lisplet.Proofs.Scoping
import Lisplet.Proofs.Pairing
import Lisplet.Proofs.Simulation
import Lisplet.Proofs.Sources
import Lisplet.Proofs.Sessions
import Lisplet.Proofs.Isolation
import Lisplet.Proofs.Tasks
import Lisplet.Proofs.Provenance
import Lisplet.Proofs.Failures
import Lisplet.Proofs.CodeAndData
import Lisplet.Proofs.Framing
import Lisplet.Proofs.Logging
import Lisplet.Proofs.Serving
import Lisplet.Proofs.Incremental
import Lisplet.Proofs.Renaming
import Lisplet.Proofs.Scanning
import Lisplet.Proofs.Names
import Lisplet.Proofs.PrintedText
import Lisplet.Proofs.JsonText
import Lisplet.Proofs.Wire
import Lisplet.Proofs.Conditions
import Lisplet.Proofs.Retention
import Lisplet.Proofs.Irrelevance
import Lisplet.Proofs.Canonical
import Lisplet.Proofs.Equality
import Lisplet.Proofs.Ordering
import Lisplet.Proofs.Assignment
import Lisplet.Proofs.FirstForm
import Lisplet.Proofs.PrimitiveCalls
import Lisplet.Proofs.Execution
import Lisplet.Proofs.CallFrames
import Lisplet.Proofs.Mapping
import Lisplet.Proofs.LogLevels
import Lisplet.Proofs.StreamView
import Lisplet.Proofs.Writes
