import DeclFront.Check
import DeclFront.Command
import DeclFront.Fallible
import DeclFront.Lexer
import DeclFront.Main
import DeclFront.Proofs.Adjacency
import DeclFront.Proofs.Advancing
import DeclFront.Proofs.Attempts
import DeclFront.Proofs.Blame
import DeclFront.Proofs.Cancellation
import DeclFront.Proofs.Capping
import DeclFront.Proofs.Carets
import DeclFront.Proofs.CheckMode
import DeclFront.Proofs.Consumption
import DeclFront.Proofs.Correspondence
import DeclFront.Proofs.DecimalTexts
import DeclFront.Proofs.Derivation
import DeclFront.Proofs.Dumps
import DeclFront.Proofs.Erasure
import DeclFront.Proofs.Expressible
import DeclFront.Proofs.Fidelity
import DeclFront.Proofs.Findings
import DeclFront.Proofs.FirstFault
import DeclFront.Proofs.Framing
import DeclFront.Proofs.Initializers
import DeclFront.Proofs.Layout
import DeclFront.Proofs.Lexemes
import DeclFront.Proofs.LineBreak
import DeclFront.Proofs.LiteralValues
import DeclFront.Proofs.Members
import DeclFront.Proofs.Modes
import DeclFront.Proofs.NormalForms
import DeclFront.Proofs.Numerals
import DeclFront.Proofs.Overflow
import DeclFront.Proofs.Parallelism
import DeclFront.Proofs.Pipelines
import DeclFront.Proofs.Policies
import DeclFront.Proofs.Pool
import DeclFront.Proofs.Positions
import DeclFront.Proofs.QuotedLiterals
import DeclFront.Proofs.Reading
import DeclFront.Proofs.Recovery
import DeclFront.Proofs.Reports
import DeclFront.Proofs.Resolution
import DeclFront.Proofs.Rewinding
import DeclFront.Proofs.Scanning
import DeclFront.Proofs.Signatures
import DeclFront.Proofs.Sources
import DeclFront.Proofs.SpanExactness
import DeclFront.Proofs.Stateful
import DeclFront.Proofs.Stepping
import DeclFront.Proofs.Supervision
import DeclFront.Proofs.Tasks
import DeclFront.Proofs.Tiling
import DeclFront.Proofs.TypeExactness
import DeclFront.Proofs.TypeSpelling
import DeclFront.Proofs.Underscores
import DeclFront.Proofs.UnitExactness
import DeclFront.Proofs.Viability
import DeclFront.Report
import DeclFront.Stream
