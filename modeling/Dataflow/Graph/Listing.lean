import Dataflow.Graph.Basic
import Dataflow.Program.Form
import Dataflow.Program.Source

/-!
# Listings

A graph is listed one line to a node, in order: the operation, then the edges
that leave it. An edge to the node of the next line is written as a star; the
target of any other edge has a number, which stands in front of its line.

* `Graph.listing`: the lines, with a note after each edge;
* `Graph.fallsThrough`, `Graph.numbered`: which edges are stars, which lines have numbers.
-/

namespace Dataflow

/-- How a label is listed. -/
def Label.show : Label → String
  | thenBranch => "THEN"
  | elseBranch => "ELSE"
  | noThrow => "NOTHROW"
  | throws => "RE"

def Origin.form : Origin → String
  | none => "None"
  | stmt s => formOf "Stmt" [s.text]
  | expr e => formOf "Expr" [e.text]

/-- The name of an operation. -/
def NodeKind.name : NodeKind → String
  | read _ => "Read"
  | write .. => "Write"
  | readWrite _ => "ReadWrite"
  | call _ => "MethodCall"
  | block => "Block"
  | statement => "Statement"
  | conditional _ => "Conditional"
  | goto => "Goto"
  | optionalThrow _ => "OptionalThrow"
  | finish => "End"
  | nop => "Nop"

def NodeKind.form (kind : NodeKind) : String :=
  match kind with
  | read v | readWrite v => formOf kind.name [v.text]
  | write v e => formOf kind.name [v.text, e.text]
  | call e | conditional e | optionalThrow e => formOf kind.name [e.text]
  | _ => kind.name

namespace Graph

/-- What a call calls: the name of its method or class. -/
def showCallee (p : Program) (call : ExprId) : Run String := do
  match ← p.exprs.get call with
  | .call method .. => return (← p.methods.get method).name
  | .newObject className => return "new " ++ className
  | _ => p.showExpr call

/-- How the operation of a node is listed. -/
def showNode (g : Graph) (p : Program) (n : NodeId) : Run String := do
  match ← g.kind n with
  | .read v => return "READ(" ++ (← p.varName v) ++ ")"
  | .write v e => return "WRITE(" ++ (← p.varName v) ++ ", " ++ (← p.showExpr e) ++ ")"
  | .readWrite v => return "READWRITE(" ++ (← p.varName v) ++ ")"
  | .call e => return "CALL(" ++ (← showCallee p e) ++ ")"
  | .block => return "BLOCK"
  | .statement => return "STMT"
  | .conditional e => return "COND (" ++ (← p.showExpr e) ++ ")"
  | .goto => return "GOTO"
  | .optionalThrow e => return "OPTTHROW(" ++ (← p.showExpr e) ++ ")"
  | .finish => return "END"
  | .nop => return "NOP"

/-- The edges that leave a node. -/
def edgesFrom (g : Graph) (n : NodeId) : List (EdgeId × Edge) :=
  (g.outEdges.get n).filterMap fun e => (g.edges.get? e).map fun edge => (e, edge)

/-- Whether an edge that leaves the node at place `i` enters the node at the next place. -/
def fallsThrough (g : Graph) (i : Nat) (edge : Edge) : Bool :=
  match edge.target with
  | some target => g.position target == some (i + 1)
  | none => false

/-- The nodes that some edge enters without falling through. -/
def jumpTargets (g : Graph) : List NodeId :=
  g.order.zipIdx.flatMap fun (n, i) =>
    (g.edgesFrom n).filterMap fun (_, edge) =>
      if g.fallsThrough i edge then none else edge.target

/-- The nodes whose lines have a number, in order: the first one has the number 1. -/
def numbered (g : Graph) : List NodeId :=
  let targets := g.jumpTargets
  g.order.filter targets.contains

/-- The number in front of the line of a node, given the nodes that have one. -/
def lineNumber (numbered : List NodeId) (n : NodeId) : Option Nat :=
  (numbered.idxOf? n).map (· + 1)

/-- How an edge that leaves the node at place `i` is listed: its label, its target
    and its note. -/
def showEdge (g : Graph) (numbered : List NodeId) (i : Nat) (edge : Edge) (note : Option String) :
    String :=
  let label := match edge.label with
    | some label => label.show ++ "="
    | none => ""
  let target :=
    if g.fallsThrough i edge then "*"
    else match edge.target.bind (lineNumber numbered) with
      | some number => toString number
      | none => "?"
  let note := match note with
    | some note => " " ++ note
    | none => ""
  label ++ target ++ note

/-- The line of the node at place `i`. -/
def showLine (g : Graph) (p : Program) (note : EdgeId → Run (Option String))
    (numbered : List NodeId) (n : NodeId) (i : Nat) : Run String := do
  let number := match lineNumber numbered n with
    | some number => toString number ++ ": "
    | none => ""
  let text ← g.showNode p n
  let edges ← (g.edgesFrom n).mapM fun (e, edge) =>
    return g.showEdge numbered i edge (← note e)
  let after := if edges.isEmpty then "" else " -> [" ++ ", ".intercalate edges ++ "]"
  return number ++ text ++ after

/-- The listing of a graph, with what `note` says after each edge. -/
def listing (g : Graph) (p : Program) (note : EdgeId → Run (Option String)) :
    Run (List String) :=
  let numbered := g.numbered
  g.order.zipIdx.mapM fun (n, i) => g.showLine p note numbered n i

/-- The listing of a graph, without notes. -/
def plainListing (g : Graph) (p : Program) : Run (List String) :=
  g.listing p fun _ => return none

end Graph

end Dataflow
