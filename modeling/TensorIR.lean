import TensorIR.Binary64
import TensorIR.Binary64.Shortest
import TensorIR.Binary64.Text
import TensorIR.Builder
import TensorIR.Config
import TensorIR.Declarations
import TensorIR.Error
import TensorIR.Expr.Outline
import TensorIR.Expr.Typed
import TensorIR.Flatness
import TensorIR.Flattening
import TensorIR.Flattening.Step
import TensorIR.Flattening.Termination
import TensorIR.Flattening.Weight
import TensorIR.FreeIndexVars
import TensorIR.Fresh
import TensorIR.Literal
import TensorIR.Lowering
import TensorIR.Pipeline
import TensorIR.Program
import TensorIR.Program.Equality
import TensorIR.Program.Induction
import TensorIR.Program.Text
import TensorIR.Proofs.Actions
import TensorIR.Proofs.Arithmetic
import TensorIR.Proofs.Choices
import TensorIR.Proofs.Conservation
import TensorIR.Proofs.Contents
import TensorIR.Proofs.Coverage
import TensorIR.Proofs.Declaring
import TensorIR.Proofs.Deferral
import TensorIR.Proofs.Evaluation
import TensorIR.Proofs.Finished
import TensorIR.Proofs.FirstDefinitions
import TensorIR.Proofs.Flatness
import TensorIR.Proofs.Form
import TensorIR.Proofs.Freshness
import TensorIR.Proofs.Grammar
import TensorIR.Proofs.InnerProducts
import TensorIR.Proofs.IntrinsicCalls
import TensorIR.Proofs.LaterRuns
import TensorIR.Proofs.Lexing
import TensorIR.Proofs.LooseVars
import TensorIR.Proofs.Lowered
import TensorIR.Proofs.Meaning
import TensorIR.Proofs.Mirroring
import TensorIR.Proofs.Nesting
import TensorIR.Proofs.Nodes
import TensorIR.Proofs.NormalForm
import TensorIR.Proofs.Normalization
import TensorIR.Proofs.Numerals
import TensorIR.Proofs.Occurrences
import TensorIR.Proofs.Outcomes
import TensorIR.Proofs.PassedTypes
import TensorIR.Proofs.Passing
import TensorIR.Proofs.Polynomials
import TensorIR.Proofs.Progress
import TensorIR.Proofs.Provenance
import TensorIR.Proofs.Reading
import TensorIR.Proofs.Rebuilding
import TensorIR.Proofs.Reductions
import TensorIR.Proofs.RelabelledStatements
import TensorIR.Proofs.Relabelling
import TensorIR.Proofs.Renamed
import TensorIR.Proofs.RenamedValues
import TensorIR.Proofs.Reuse
import TensorIR.Proofs.Rounding
import TensorIR.Proofs.RunOrder
import TensorIR.Proofs.Runs
import TensorIR.Proofs.Scope
import TensorIR.Proofs.Searches
import TensorIR.Proofs.Semantics
import TensorIR.Proofs.Sessions
import TensorIR.Proofs.Settled
import TensorIR.Proofs.Shape
import TensorIR.Proofs.Sharing
import TensorIR.Proofs.Simulation
import TensorIR.Proofs.Splicing
import TensorIR.Proofs.Statements
import TensorIR.Proofs.Structure
import TensorIR.Proofs.Sums
import TensorIR.Proofs.Temporaries
import TensorIR.Proofs.Totality
import TensorIR.Proofs.TraversalOrder
import TensorIR.Proofs.Vocabulary
import TensorIR.Proofs.Wrapping
import TensorIR.Quoted
import TensorIR.Quoted.CodeRange
import TensorIR.Quoted.Joining
import TensorIR.Quoted.Unseen
import TensorIR.Search
import TensorIR.Splicer
import TensorIR.Substitution
import TensorIR.Transform
import TensorIR.Ty
import TensorIR.Var
import TensorIR.Visitor
