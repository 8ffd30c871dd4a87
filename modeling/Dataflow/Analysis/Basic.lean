import Dataflow.Analysis.FactMap
import Dataflow.Error

/-!
# Analyses

An analysis interprets the nodes of a graph one at a time: from the facts on one
side of a node it derives those on the other. A *rewriting* analysis may instead
propose to replace the node, by a rewrite that edits the program and then tells
which fragment of a graph takes the node's place.

* `Analysis`, `RewritingAnalysis`: what the solver runs;
* `Rewrite`: what it carries out;
* `Analysis.ofTransfer`: the analysis that joins what arrives at a node and puts
  what follows from it on the edges on the other side.
-/

namespace Dataflow

/-- An analysis with facts in `A`. -/
structure Analysis (A : Type) where
  direction : Direction
  /-- The fact where the control enters the graph, or leaves it if facts flow backward. -/
  initial : A
  /-- The facts after a visit of a node. It is meant to read those on the side where facts
      arrive and to change those on the other. -/
  interpret : NodeId → Graph → Program → FactMap A → Run (FactMap A)

/-- What a rewriting analysis makes of a node. -/
inductive Verdict (T : Type) where
  /-- It interpreted the node. -/
  | interpreted
  /-- It left the facts alone and proposes a rewrite. -/
  | replace (rewrite : T)

/-- What is left when a rewrite was tried: the rewrite as it is afterwards, or an error,
    and the graph and the program, edited as far as it came. -/
structure Attempt (T : Type) where
  outcome : Except Error T
  graph : Graph
  program : Program

/-- The attempt with the rewrite afterwards changed by `f`. -/
def Attempt.map {S T : Type} (f : S → T) (a : Attempt S) : Attempt T :=
  { a with outcome := a.outcome.map f }

/-- A type of rewrites. -/
class Rewrite (T : Type) where
  /-- Edits the program, and what the graph says about it, for a node to be replaced. -/
  transform : T → NodeId → Graph → Program → Run (Attempt T)
  /-- The fragment that takes the place of the node, once the program was edited. -/
  fragment : T → Program → Run (Except Error Graph)

/-- An analysis with facts in `A` that may propose rewrites in `T`. -/
structure RewritingAnalysis (A T : Type) extends Analysis A where
  /-- The verdict on a node, and the facts after it. -/
  judge : NodeId → Graph → Program → FactMap A → Run (Verdict T × FactMap A)

namespace Direction

/-- The edges that facts arrive on at a node. -/
def inputs : Direction → Graph → NodeId → List EdgeId
  | forward, g, n => g.inEdges.get n
  | backward, g, n => g.outEdges.get n

/-- The edges that facts leave a node on. -/
def outputs : Direction → Graph → NodeId → List EdgeId
  | forward, g, n => g.outEdges.get n
  | backward, g, n => g.inEdges.get n

/-- The node that the fact on an edge arrives at, if there is one. -/
def receiver : Direction → Edge → Option NodeId
  | forward, edge => edge.target
  | backward, edge => edge.source

end Direction

/-- What follows from the fact `a` that arrives at a node: for each edge on the other side
    the fact to put there, or none to leave it as it is. -/
abbrev Transfer (A : Type) := NodeId → Graph → Program → A → Run (EdgeId → Option A)

namespace FactMap

variable {A : Type} [DecidableEq A]

/-- The map with the facts of `out` on the edges of a list, in order. -/
def put (m : FactMap A) (edges : List EdgeId) (out : EdgeId → Option A) : FactMap A :=
  edges.foldl (fun m e => match out e with
    | some a => m.set e a
    | none => m) m

end FactMap

namespace Analysis

variable {A : Type} [DecidableEq A] [Fact A]

/-- The analysis that joins the facts that arrive at a node and puts on the other side what
    follows from them. -/
def ofTransfer (direction : Direction) (initial : A) (transfer : Transfer A) : Analysis A where
  direction
  initial
  interpret n g p m := do
    let out ← transfer n g p (m.joined (direction.inputs g n))
    return m.put (direction.outputs g n) out

end Analysis

namespace RewritingAnalysis

variable {A T : Type} [DecidableEq A] [Fact A]

/-- The analysis of a transfer that proposes a rewrite of a node where `propose` finds one
    for the fact that arrives there. -/
def ofTransfer (direction : Direction) (initial : A) (transfer : Transfer A)
    (propose : NodeId → Graph → A → Run (Option T)) : RewritingAnalysis A T where
  toAnalysis := Analysis.ofTransfer direction initial transfer
  judge n g p m := do
    match ← propose n g (m.joined (direction.inputs g n)) with
    | some rewrite => return (.replace rewrite, m)
    | none =>
      let m ← (Analysis.ofTransfer direction initial transfer).interpret n g p m
      return (.interpreted, m)

end RewritingAnalysis

end Dataflow
