import MaximalMunch.CLike
import MaximalMunch.Kinds
import MaximalMunch.Main
import MaximalMunch.Proofs.Path
import MaximalMunch.Proofs.Fragment
import MaximalMunch.Proofs.Graph
import MaximalMunch.Proofs.ByteSet
import MaximalMunch.Proofs.Component
import MaximalMunch.Proofs.Operation
import MaximalMunch.Proofs.PatternGraph
import MaximalMunch.Proofs.Run
import MaximalMunch.Proofs.Interning
import MaximalMunch.Proofs.Canonical
import MaximalMunch.Proofs.Subset
import MaximalMunch.Proofs.Coloring
import MaximalMunch.Proofs.Minimal
import MaximalMunch.Proofs.Splitting
import MaximalMunch.Proofs.Compile
import MaximalMunch.Proofs.Join
import MaximalMunch.Proofs.CanonicalForm
import MaximalMunch.Proofs.Equivalence
import MaximalMunch.Proofs.Program
import MaximalMunch.Proofs.Longest
import MaximalMunch.Proofs.Oracle
import MaximalMunch.Proofs.Grammar
import MaximalMunch.Proofs.Parsing
import MaximalMunch.Proofs.Denotation
import MaximalMunch.Proofs.Segmentation
import MaximalMunch.Proofs.Position
import MaximalMunch.Proofs.Calls
import MaximalMunch.Proofs.Faults
import MaximalMunch.Proofs.Recognition
import MaximalMunch.Proofs.Bindings
import MaximalMunch.Proofs.Relocation
import MaximalMunch.Proofs.Verdict
import MaximalMunch.Proofs.Pairing
import MaximalMunch.Proofs.FixedPoint
import MaximalMunch.Proofs.Encoding
import MaximalMunch.Proofs.Escaping
import MaximalMunch.Proofs.SyntaxFaults
import MaximalMunch.Proofs.Finality
import MaximalMunch.Proofs.Truncation
import MaximalMunch.Proofs.Lists
import MaximalMunch.Proofs.Progress
import MaximalMunch.Proofs.Comments
import MaximalMunch.Proofs.Closures
import MaximalMunch.Proofs.Matching
import MaximalMunch.Proofs.DepthFirst
import MaximalMunch.Proofs.Arena
import MaximalMunch.Proofs.Numbering
import MaximalMunch.Proofs.FailedUnion
import MaximalMunch.Proofs.Choices
import MaximalMunch.Proofs.Alarms
import MaximalMunch.Proofs.Margins
import MaximalMunch.Proofs.Words
import MaximalMunch.Proofs.Boundaries
import MaximalMunch.Proofs.Generated
import MaximalMunch.Proofs.BackOff
import MaximalMunch.Proofs.ByteSpelling
import MaximalMunch.Proofs.Runs
import MaximalMunch.Proofs.Dashes
import MaximalMunch.Proofs.EdgeLines
