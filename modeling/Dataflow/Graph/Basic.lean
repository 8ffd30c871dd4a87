import Dataflow.Program.Basic
import Dataflow.SideTable

/-!
# Control-flow graphs

A graph has nodes, each an operation of a program, and edges, each a way the
control may go on from one node to another. Nodes and edges live in arenas and
are never taken away; the *order* of a graph lists its nodes in the sequence
they are visited, and a node that was replaced is marked as removed.

An edge may lack its source or its target: it is then a *port*, through which a
fragment of a graph could be joined to another one.

* `Graph.addNode`, `Graph.addEdge`, `Graph.addInPort`, `Graph.addOutPort`: how graphs grow;
* `Graph.retarget`: what nodes say about one expression, said about another;
* `Graph.containingStatement`: the statement that a node belongs to.
-/

namespace Dataflow

abbrev NodeId := Handle "node"
abbrev EdgeId := Handle "edge"

/-- Tells the ways out of a node apart. -/
inductive Label where
  | thenBranch
  | elseBranch
  /-- The call that follows does not throw. -/
  | noThrow
  /-- The call that would follow throws. -/
  | throws
  deriving DecidableEq

/-- The part of the program that a node was made for. -/
inductive Origin where
  | none
  | stmt (s : StmtId)
  | expr (e : ExprId)
  deriving DecidableEq

/-- The operation of a node. -/
inductive NodeKind where
  | read (v : VarId)
  | write (v : VarId) (value : ExprId)
  /-- A compound assignment or an increment. -/
  | readWrite (v : VarId)
  /-- A call of a method or of a constructor. -/
  | call (e : ExprId)
  | block
  | statement
  | conditional (condition : ExprId)
  | goto
  /-- The way parts before a call, for the case that it throws. -/
  | optionalThrow (call : ExprId)
  /-- Where a method ends. -/
  | finish
  /-- Stands for an expression that has no other node of its own. -/
  | nop
  deriving DecidableEq

structure Node where
  kind : NodeKind
  origin : Origin := .none
  /-- The innermost statement or block node around this one. -/
  parent : Option NodeId := none
  deriving DecidableEq

structure Edge where
  /-- The node the edge leaves; none for a port into the graph. -/
  source : Option NodeId
  /-- The node the edge enters; none for a port out of the graph. -/
  target : Option NodeId
  label : Option Label := none
  deriving DecidableEq

structure Graph where
  nodes : Arena "node" Node := {}
  edges : Arena "edge" Edge := {}
  /-- The nodes that are part of the graph, in the sequence they are visited. -/
  order : List NodeId := []
  /-- The nodes that were replaced. -/
  removed : SideTable "node" Bool := {}
  /-- The edges that enter a node. -/
  inEdges : SideTable "node" (List EdgeId) := {}
  /-- The edges that leave a node. -/
  outEdges : SideTable "node" (List EdgeId) := {}
  inPorts : List EdgeId := []
  outPorts : List EdgeId := []
  entry : Option NodeId := none
  exit : Option NodeId := none
  deriving DecidableEq

namespace NodeKind

/-- The expression that an operation refers to, other than by a variable. -/
def expr? : NodeKind → Option ExprId
  | write _ e | call e | conditional e | optionalThrow e => some e
  | _ => none

/-- The operation with `replacement` for the expression it refers to, if that is `target`. -/
def retarget (target replacement : ExprId) : NodeKind → NodeKind
  | write v e => write v (if e = target then replacement else e)
  | call e => call (if e = target then replacement else e)
  | conditional e => conditional (if e = target then replacement else e)
  | optionalThrow e => optionalThrow (if e = target then replacement else e)
  | kind => kind

end NodeKind

namespace Node

/-- Whether a node refers to an expression. -/
def refersTo (n : Node) (e : ExprId) : Bool := n.kind.expr? == some e || n.origin == .expr e

/-- The node with every reference to `target` made one to `replacement`. -/
def retarget (target replacement : ExprId) (n : Node) : Node :=
  { n with
    kind := n.kind.retarget target replacement
    origin := if n.origin = .expr target then .expr replacement else n.origin }

end Node

namespace Graph

/-- The graph with one more node, the last in order. -/
def addNode (g : Graph) (n : Node) : Graph :=
  { g with nodes := g.nodes.push n, order := g.order ++ [g.nodes.next] }

/-- The graph with one more edge. -/
def addEdge (g : Graph) (source target : NodeId) (label : Option Label) : Graph :=
  { g with
    edges := g.edges.push { source := some source, target := some target, label := label }
    outEdges := g.outEdges.modify source (· ++ [g.edges.next])
    inEdges := g.inEdges.modify target (· ++ [g.edges.next]) }

/-- The graph with one more port, into `target`. -/
def addInPort (g : Graph) (target : NodeId) : Graph :=
  { g with
    edges := g.edges.push { source := none, target := some target }
    inEdges := g.inEdges.modify target (· ++ [g.edges.next])
    inPorts := g.inPorts ++ [g.edges.next] }

/-- The graph with one more port, out of `source`. -/
def addOutPort (g : Graph) (source : NodeId) (label : Option Label) : Graph :=
  { g with
    edges := g.edges.push { source := some source, target := none, label := label }
    outEdges := g.outEdges.modify source (· ++ [g.edges.next])
    outPorts := g.outPorts ++ [g.edges.next] }

/-- The operation of a node. -/
def kind (g : Graph) (n : NodeId) : Run NodeKind := return (← g.nodes.get n).kind

/-- Whether a node is there and was not replaced. -/
def isLive (g : Graph) (n : NodeId) : Bool := g.nodes.contains n && !g.removed.get n

/-- The place of a node in the order. -/
def position (g : Graph) (n : NodeId) : Option Nat := g.order.idxOf? n

/-- The graph with every reference to `target` among the nodes in order made one to
    `replacement`, and the number of nodes that held one. -/
def retarget (g : Graph) (target replacement : ExprId) : Nat × Graph :=
  let refersTo (n : NodeId) : Bool := (g.nodes.get? n).any (·.refersTo target)
  (g.order.countP refersTo,
    { g with nodes := g.order.foldl (·.modify · (Node.retarget target replacement)) g.nodes })

/-- One step of `containingStatement`: the node itself, or what `self` finds from its parent. -/
def containingStatementStep (g : Graph) (self : NodeId → Run (Option NodeId)) (n : NodeId) :
    Run (Option NodeId) := do
  let node ← g.nodes.get n
  if node.kind = .statement then return some n
  match node.parent with
  | some parent => self parent
  | none => return none

/-- The nearest statement node at or above a node. -/
def containingStatement (g : Graph) (n : NodeId) : Run (Option NodeId) :=
  unroll (throw .endless) g.containingStatementStep (g.nodes.size + 1) n

end Graph

end Dataflow
