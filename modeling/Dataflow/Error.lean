import Dataflow.Analysis.Direction
import Dataflow.Graph.Listing

/-!
# Errors

What can go wrong while graphs are made, joined and analysed. An `Error` says
what happened and to what; `Error.message` puts it into words.

An error ends the work on one method. What had been changed before it happened
stays changed.
-/

namespace Dataflow

/-- What went wrong. -/
inductive Error where
  /-- A fragment to be joined still has ports. -/
  | fragmentPorts (ins outs : Nat)
  /-- A fragment to be joined lacks its entry or its exit. -/
  | fragmentEnds
  /-- The entry or the exit of a fragment is no node in its order. -/
  | fragmentEndsUnordered
  /-- A rewrite did not replace exactly one slot. -/
  | substitutions (count : Nat) (target : ExprId) (stmt : StmtId)
  /-- A rewrite was refused by the analysis that proposed it. -/
  | refused
  /-- No statement encloses a node to be rewritten. -/
  | noStatement (node : NodeId)
  /-- The node of a statement does not come from a statement. -/
  | notAStatement (node : NodeId) (origin : Origin)
  /-- A node to be replaced is no node of the graph. -/
  | staleNode (node : NodeId)
  /-- A node to be replaced has no place in the order. -/
  | unorderedNode (node : NodeId)
  /-- A method has no body. -/
  | noBody (method : String)
  /-- Something other than a variable or a field is assigned to. -/
  | badTarget (target : Expr)
  /-- Two analyses to be combined flow different ways. -/
  | opposed (first second : Direction)
  /-- A replacement was asked for before there was one. -/
  | noReplacement
  /-- A graph has ports. -/
  | ports (ins outs : Nat)
  /-- A removed node is still in the order. -/
  | removedInOrder (node : NodeId)
  /-- An edge is listed as entering a node that it does not enter. -/
  | strayInEdge (edge : EdgeId) (node : NodeId) (target : Option NodeId)
  /-- An edge is listed as leaving a node that it does not leave. -/
  | strayOutEdge (edge : EdgeId) (node : NodeId) (source : Option NodeId)
  /-- An edge ends at a node that is not part of the graph. -/
  | deadEnd (edge : EdgeId) (node : NodeId)
  /-- The entry is not part of the graph. -/
  | deadEntry (node : NodeId)
  deriving DecidableEq

namespace Error

/-- The sort of an error. -/
def kind : Error → String
  | fragmentPorts .. | fragmentEnds => "DanglingPorts"
  | substitutions .. | refused => "UnchangedTarget"
  | noStatement _ | notAStatement .. => "MissingStatement"
  | staleNode _ | unorderedNode _ => "StaleNode"
  | noBody _ | badTarget _ | opposed .. => "Unsupported"
  | fragmentEndsUnordered | noReplacement | ports .. | removedInOrder _ | strayInEdge ..
  | strayOutEdge .. | deadEnd .. | deadEntry _ => "Internal"

/-- What happened, in words. -/
def detail : Error → String
  | fragmentPorts ins outs => s!"fragment has {ins} graph in-edges and {outs} graph out-edges"
  | fragmentEnds => "fragment has no entry or exit node"
  | fragmentEndsUnordered => "fragment entry or exit is not an ordered node"
  | substitutions count target stmt => s!"{count} substitutions of {target} in {stmt}"
  | refused => "custom"
  | noStatement node => s!"no statement encloses {node}"
  | notAStatement node origin => s!"{node} refers to " ++ origin.form ++ ", not a statement"
  | staleNode node => s!"cannot replace {node}: not in graph"
  | unorderedNode node => s!"{node} is not ordered"
  | noBody method => method ++ " has no body"
  | badTarget target => "assignment target " ++ target.form
  | opposed first second =>
    "cannot combine a " ++ first.form ++ " analysis with a " ++ second.form ++ " one"
  | noReplacement => "replacement subgraph requested before transform"
  | ports ins outs => s!"{ins} graph in-edges and {outs} graph out-edges"
  | removedInOrder node => s!"removed {node} still ordered"
  | strayInEdge edge node target =>
    s!"{edge} listed as in-edge of {node} but targets " ++ optionForm (target.map Handle.text)
  | strayOutEdge edge node source =>
    s!"{edge} listed as out-edge of {node} but leaves " ++ optionForm (source.map Handle.text)
  | deadEnd edge node => s!"{edge} touches dead {node}"
  | deadEntry node => s!"entry {node} is not live"

/-- The message of an error: its sort, with what happened in quotes. -/
def message (e : Error) : String := formOf e.kind [Text.quote e.detail]

end Error

end Dataflow
