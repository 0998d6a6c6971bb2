import DynScope.Environment.Script
import DynScope.Evaluation.Stmt
import DynScope.Host
import DynScope.Interner
import DynScope.Interpreter
import DynScope.Literal
import DynScope.Number.Exact
import DynScope.Number.Layout
import DynScope.Prelude
import DynScope.Program
import DynScope.Session
import DynScope.Value.Operation
import DynScope.Workbench
import DynScope.Proofs.Copying
import DynScope.Proofs.Purity
import DynScope.Proofs.Fuel
import DynScope.Proofs.Refinement
import DynScope.Proofs.Interner
import DynScope.Proofs.Printing
import DynScope.Proofs.Transition
import DynScope.Proofs.History
import DynScope.Proofs.Correspondence
import DynScope.Proofs.Renaming
import DynScope.Proofs.Independence
import DynScope.Proofs.FullCopies
import DynScope.Proofs.Rollback
import DynScope.Proofs.Effects
import DynScope.Proofs.Replay
import DynScope.Proofs.Points
import DynScope.Proofs.Declarations
import DynScope.Proofs.FirstAppearance
import DynScope.Proofs.Contents
import DynScope.Proofs.Diagnosis
import DynScope.Proofs.Tracing
import DynScope.Proofs.CallChain
import DynScope.Proofs.Records
import DynScope.Proofs.Linearization
import DynScope.Proofs.Provenance
import DynScope.Proofs.Visibility
import DynScope.Proofs.Identity
import DynScope.Proofs.Termination
import DynScope.Proofs.Iteration
import DynScope.Proofs.Flattening
import DynScope.Proofs.Registration
import DynScope.Proofs.Equality
import DynScope.Proofs.TreeEquality
import DynScope.Proofs.Aliasing
import DynScope.Proofs.Subscript
import DynScope.Proofs.Readability
