import Dataflow.Error

/-!
# Splicing

`Graph.splice` replaces one node of a graph by a fragment: copies of the
fragment's nodes take the node's place in the order, every edge that entered the
node enters the copy of the fragment's entry, and every edge that left it leaves
the copy of the fragment's exit. These edges keep their handles and labels, so
whatever was known about them still stands beside them.
-/

namespace Dataflow.Graph

/-- The node that a splice of `f` into `g` makes for the node `n` of `f`: there is one
    for each node in the order of `f`. -/
def copyOf (g f : Graph) (n : NodeId) : Option NodeId :=
  (f.position n).map fun i => ⟨g.nodes.size + i⟩

/-- The nodes that a splice of `f` into `g` makes, in order. -/
def copies (g f : Graph) : List NodeId :=
  (List.range f.order.length).map fun i => ⟨g.nodes.size + i⟩

/-- The copy of a node of `f`: its parent is the copy of the node's parent, or `parent`
    where there is none. -/
def copyNode (g f : Graph) (parent : Option NodeId) (node : Node) : Node :=
  { node with parent := (node.parent.bind (g.copyOf f)).or parent }

/-- The graph with copies of the nodes in the order of `f`, which have no place in its
    own order yet, and of the edges between them. -/
def graft (g f : Graph) (parent : Option NodeId) : Graph :=
  let nodes := (f.order.filterMap f.nodes.get?).foldl
    (fun nodes node => nodes.push (g.copyNode f parent node)) g.nodes
  let ends (edge : Edge) : Option (NodeId × NodeId × Option Label) := do
    return (← g.copyOf f (← edge.source), ← g.copyOf f (← edge.target), edge.label)
  (f.edges.values.filterMap ends).foldl
    (fun g (source, target, label) => g.addEdge source target label) { g with nodes }

/-- The graph with the node `n` replaced by `nodes`: what entered `n` enters `entry`, and
    what left it leaves `exit`. -/
def substitute (g : Graph) (n : NodeId) (nodes : List NodeId) (entry exit : NodeId) : Graph :=
  let incoming := g.inEdges.get n
  let outgoing := g.outEdges.get n
  let edges := incoming.foldl
    (fun edges e => edges.modify e fun edge => { edge with target := some entry }) g.edges
  let edges := outgoing.foldl
    (fun edges e => edges.modify e fun edge => { edge with source := some exit }) edges
  { g with
    edges
    inEdges := (g.inEdges.set n []).modify entry (· ++ incoming)
    outEdges := (g.outEdges.set n []).modify exit (· ++ outgoing)
    entry := if g.entry = some n then some entry else g.entry
    exit := if g.exit = some n then some exit else g.exit
    removed := g.removed.set n true
    order := g.order.flatMap fun m => if m = n then nodes else [m] }

/-- Replaces the node `n` of a graph by the fragment `f`, and gives the nodes put in its
    place, in order. A fragment whose entry or exit is not in its order is found out only
    after it was grafted. -/
def splice (g : Graph) (n : NodeId) (f : Graph) : Except Error (List NodeId) × Graph :=
  if !g.isLive n then (.error (.staleNode n), g)
  else if !(f.inPorts.isEmpty && f.outPorts.isEmpty) then
    (.error (.fragmentPorts f.inPorts.length f.outPorts.length), g)
  else match f.entry, f.exit with
  | some entry, some exit =>
    if n ∉ g.order then (.error (.unorderedNode n), g)
    else
      let grafted := g.graft f ((g.nodes.get? n).bind Node.parent)
      match g.copyOf f entry, g.copyOf f exit with
      | some entry, some exit =>
        (.ok (g.copies f), grafted.substitute n (g.copies f) entry exit)
      | _, _ => (.error .fragmentEndsUnordered, grafted)
  | _, _ => (.error .fragmentEnds, g)

end Dataflow.Graph
