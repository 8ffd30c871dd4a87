import Dataflow.Analysis.Basic
import Dataflow.Analysis.Combined
import Dataflow.Analysis.Direction
import Dataflow.Analysis.FactMap
import Dataflow.Analysis.Fuel
import Dataflow.Analysis.Solver
import Dataflow.Analysis.Sweep
import Dataflow.Arena
import Dataflow.Error
import Dataflow.Eval
import Dataflow.Graph.Basic
import Dataflow.Graph.Listing
import Dataflow.Graph.Lowering
import Dataflow.Graph.Splice
import Dataflow.Graph.Verify
import Dataflow.Handle
import Dataflow.HandleMap
import Dataflow.Inlining.Analysis
import Dataflow.Inlining.Facts
import Dataflow.Inlining.Optimize
import Dataflow.Probe
import Dataflow.Program.Basic
import Dataflow.Program.Edit
import Dataflow.Program.Effects
import Dataflow.Program.Form
import Dataflow.Program.Source
import Dataflow.Program.Walk
import Dataflow.Run
import Dataflow.Sample
import Dataflow.SideTable
import Dataflow.Text.Lines
import Dataflow.Text.Quoted
import Dataflow.Proofs.Building
import Dataflow.Proofs.ExactSolving
import Dataflow.Proofs.Simulation
import Dataflow.Proofs.Optimization
import Dataflow.Proofs.Termination
import Dataflow.Proofs.Preservation
import Dataflow.Proofs.VisitingOrder
import Dataflow.Proofs.BackwardSolving
import Dataflow.Proofs.Exhaustion
import Dataflow.Proofs.Stirring
import Dataflow.Proofs.Agreement
import Dataflow.Proofs.Elsewhere
import Dataflow.Proofs.Idempotence
import Dataflow.Proofs.Representation
import Dataflow.Proofs.CombinedSolving
import Dataflow.Proofs.Bisection
import Dataflow.Proofs.CombinedSweeps
import Dataflow.Proofs.Fixpoints
import Dataflow.Proofs.FragmentCopies
import Dataflow.Proofs.SplicedPaths
import Dataflow.Proofs.SweepOrder
import Dataflow.Proofs.UpdateBounds
import Dataflow.Proofs.Acyclic
import Dataflow.Proofs.ExpressionRows
import Dataflow.Proofs.MethodShapes
import Dataflow.Proofs.Frames
import Dataflow.Proofs.Distributivity
import Dataflow.Proofs.Steadiness
import Dataflow.Proofs.Endurance
import Dataflow.Proofs.Samples
import Dataflow.Proofs.Refuelling
import Dataflow.Proofs.Counting
import Dataflow.Proofs.FuelThresholds
import Dataflow.Proofs.SharedSubstitution
import Dataflow.Proofs.Listings
import Dataflow.Proofs.Lexemes
import Dataflow.Proofs.ExpressionTrees
import Dataflow.Proofs.Legibility
import Dataflow.Proofs.Unambiguity
import Dataflow.Proofs.Readings
import Dataflow.Proofs.Clones
