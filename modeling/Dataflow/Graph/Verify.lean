import Dataflow.Error

/-!
# Verifying a graph

A whole graph has no ports, lists every edge where it begins and where it ends,
and has edges between its own nodes only. `Graph.verify` checks this and reports
the first thing that is wrong.
-/

namespace Dataflow.Graph

/-- Checks a node in order: it was not removed, and the edges listed for it are its own. -/
def verifyNode (g : Graph) (n : NodeId) : Except Error Unit := do
  if g.removed.get n then throw (.removedInOrder n)
  (g.inEdges.get n).forM fun e => do
    let target := (g.edges.get? e).bind Edge.target
    if target ≠ some n then throw (.strayInEdge e n target)
  (g.outEdges.get n).forM fun e => do
    let source := (g.edges.get? e).bind Edge.source
    if source ≠ some n then throw (.strayOutEdge e n source)

/-- Checks an edge: its ends are nodes in order. -/
def verifyEdge (g : Graph) (e : EdgeId) (edge : Edge) : Except Error Unit :=
  (edge.source.toList ++ edge.target.toList).forM fun n => do
    if g.removed.get n || !g.order.contains n then throw (.deadEnd e n)

/-- Checks that a graph has no ports, that its edges are listed where they begin and
    end, that they join nodes in order, and that its entry, if it has one, is live. -/
def verify (g : Graph) : Except Error Unit := do
  unless g.inPorts.isEmpty && g.outPorts.isEmpty do
    throw (.ports g.inPorts.length g.outPorts.length)
  g.order.forM g.verifyNode
  g.edges.entries.forM fun (e, edge) => g.verifyEdge e edge
  match g.entry with
  | some n => unless g.isLive n do throw (.deadEntry n)
  | none => return ()

end Dataflow.Graph
