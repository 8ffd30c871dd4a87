import Dataflow.Analysis.Fuel
import Dataflow.Analysis.Solver
import Dataflow.Graph.Splice
import Dataflow.Graph.Verify

/-!
# Rewriting while solving

A rewriting analysis is first solved as it is. Then a *sweep* goes through the
nodes in order (from the last one if facts flow backward) and asks for the
verdict on each. A node to be replaced gives its place to the nodes of a
fragment, the facts are solved again from these, and the sweep goes on with them.

Each rewrite asks the budget for a unit of fuel; without one, the node is
interpreted as if nothing had been proposed.

* `Sweep`, `Sweep.step`: a sweep at some place, and what it does there;
* `RewritingAnalysis.integrate`: the whole of it.
-/

namespace Dataflow

/-- How to run an integrated solve. -/
structure Options where
  /-- Whether to verify the graph after each rewrite. -/
  verify : Bool := false
  /-- The bound on the visits of the solver each time that it runs, and on the steps of
      the sweep. -/
  bound : Nat
  deriving DecidableEq

/-- A sweep at some place. -/
structure Sweep (A : Type) where
  graph : Graph
  program : Program
  facts : FactMap A
  fuel : Fuel
  /-- Forward, the number of places before the next node; backward, that number and one more. -/
  index : Nat
  /-- The number of rewrites so far. -/
  rewrites : Nat := 0

/-- How a sweep goes on after a step. -/
inductive Progress (S : Type) where
  | done
  | next (s : S)
  | failed (e : Error) (s : S)

variable {A T : Type}

namespace Sweep

/-- The place of the next node, unless the sweep is over. -/
def place (an : Analysis A) (s : Sweep A) : Option Nat :=
  match an.direction with
  | .forward => if s.index < s.graph.order.length then some s.index else none
  | .backward => if s.index > 0 then some (s.index - 1) else none

/-- The sweep past the next node. -/
def advance (an : Analysis A) (s : Sweep A) : Sweep A :=
  match an.direction with
  | .forward => { s with index := s.index + 1 }
  | .backward => { s with index := s.index - 1 }

/-- The sweep past a node whose interpretation left the facts `m`. -/
def pass (an : Analysis A) (bound : Nat) (s : Sweep A) (m : FactMap A) :
    Run (Progress (Sweep A)) := do
  let facts ← an.settle bound s.graph s.program m
  return .next ({ s with facts }.advance an)

/-- The sweep with the node at `place` replaced as a rewrite asks for. Backward, it goes on at the
    last node of the fragment; forward, at the first, which now has the place of the node. -/
def replace [Rewrite T] (an : Analysis A) (options : Options) (s : Sweep A) (place : Nat)
    (n : NodeId) (rewrite : T) : Run (Progress (Sweep A)) := do
  let attempt ← Rewrite.transform rewrite n s.graph s.program
  let s := { s with graph := attempt.graph, program := attempt.program }
  match attempt.outcome with
  | .error e => return .failed e s
  | .ok rewrite =>
    match ← Rewrite.fragment rewrite s.program with
    | .error e => return .failed e s
    | .ok fragment =>
      let (spliced, graph) := s.graph.splice n fragment
      let s := { s with graph }
      match spliced with
      | .error e => return .failed e s
      | .ok inserted =>
        match if options.verify then s.graph.verify else .ok () with
        | .error e => return .failed e s
        | .ok () =>
          let (_, facts) ← an.propagate options.bound s.graph s.program s.facts inserted
          let index := match an.direction with
            | .forward => s.index
            | .backward => place + inserted.length
          return .next { s with facts, index, rewrites := s.rewrites + 1 }

/-- One step of a sweep: the verdict on the next node, and what follows from it. -/
def step [Rewrite T] (an : RewritingAnalysis A T) (options : Options) (s : Sweep A) :
    Run (Progress (Sweep A)) := do
  match s.place an.toAnalysis with
  | none => return .done
  | some place =>
    match s.graph.order[place]? with
    | none => return .done
    | some n =>
      match ← an.judge n s.graph s.program s.facts with
      | (.interpreted, m) => s.pass an.toAnalysis options.bound m
      | (.replace rewrite, m) =>
        let (allowed, fuel) ← s.fuel.consume
        let s := { s with facts := m, fuel }
        if allowed then s.replace an.toAnalysis options place n rewrite
        else
          let m ← an.interpret n s.graph s.program s.facts
          s.pass an.toAnalysis options.bound m

/-- Steps of a sweep until it is over or fails, `bound` of them at most. -/
def run [Rewrite T] (an : RewritingAnalysis A T) (options : Options) :
    (bound : Nat) → Sweep A → Run (Except Error Unit × Sweep A)
  | 0, _ => .error .endless
  | bound + 1, s =>
    match s.step an options with
    | .ok .done => .ok (.ok (), s)
    | .ok (.next s) => run an options bound s
    | .ok (.failed e s) => .ok (.error e, s)
    | .error fault => .error fault

end Sweep

/-- What an integrated solve leaves: whether anything was rewritten, or an error, and the
    graph, the program and the fuel as they are then. -/
structure Integration where
  outcome : Except Error Bool
  graph : Graph
  program : Program
  fuel : Fuel

namespace RewritingAnalysis

/-- Solves an analysis and carries out the rewrites that it proposes. -/
def integrate [Rewrite T] (an : RewritingAnalysis A T) (options : Options) (fuel : Fuel)
    (graph : Graph) (program : Program) : Run Integration := do
  let facts ← an.solve options.bound graph program
  let index := match an.direction with
    | .forward => 0
    | .backward => graph.order.length
  let (outcome, s) ← Sweep.run an options options.bound { graph, program, facts, fuel, index }
  return {
    outcome := outcome.map fun _ => decide (s.rewrites > 0)
    graph := s.graph
    program := s.program
    fuel := s.fuel }

end RewritingAnalysis

end Dataflow
