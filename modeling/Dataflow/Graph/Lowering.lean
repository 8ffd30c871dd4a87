import Dataflow.Error

/-!
# Lowering programs to graphs

A statement is lowered to a node of its own, followed by the nodes of its
expressions in the order they are evaluated. Of an expression only those
operations get a node that an analysis can observe: reads, writes, calls.
An expression alone is therefore a row of `Operation`s, and lowering it is
laying them out one after the other.

In the graph of a method a call may throw: the way parts right before it, and
one way leads to the end of the method. In the graph of an expression it may not.

* `Program.operations`: the observable operations of an expression, in order;
* `Graph.ofBody`, `Graph.ofMethod`: the graph of a method body;
* `Graph.ofExpr`: the graph of an expression, a chain from entry to exit.
-/

namespace Dataflow

/-- Lowering may run into an error, or have no answer at all. -/
abbrev Lowered (α : Type) := ExceptT Error Run α

/-- An observable operation, with the expression that it is part of. -/
structure Operation where
  kind : NodeKind
  expr : ExprId
  deriving DecidableEq

namespace Program

/-! ### Expressions -/

/-- The variable that an assignment to `target` writes, and the operations that come
    before: those of the object whose field it is. -/
def targetOperations (p : Program) (self : ExprId → Lowered (List Operation)) (target : ExprId) :
    Lowered (VarId × List Operation) := do
  match ← p.exprs.get target with
  | .var v => return (v, [])
  | .field object v => return (v, ← self object)
  | other => throw (.badTarget other)

/-- One level of `operations`: those of an expression from those of its operands. -/
def operationsStep (p : Program) (self : ExprId → Lowered (List Operation)) (e : ExprId) :
    Lowered (List Operation) := do
  match ← p.exprs.get e with
  | .int _ | .bool _ | .null => return []
  | .var v => return [⟨.read v, e⟩]
  | .field object v => return (← self object) ++ [⟨.read v, e⟩]
  | .unary _ operand => self operand
  | .binary _ lhs rhs => return (← self lhs) ++ (← self rhs)
  | .assign target value =>
    let (v, before) ← p.targetOperations self target
    return before ++ (← self value) ++ [⟨.write v value, e⟩]
  | .compound _ target value =>
    let (v, before) ← p.targetOperations self target
    return before ++ (← self value) ++ [⟨.readWrite v, e⟩]
  | .increment _ target =>
    let (v, before) ← p.targetOperations self target
    return before ++ [⟨.readWrite v, e⟩]
  | .call _ receiver args =>
    let before ← (receiver.toList ++ args).mapM self
    return before.flatten ++ [⟨.call e, e⟩]
  | .newObject _ => return [⟨.call e, e⟩]
  | .newArray _ length => self length

/-- The observable operations of an expression, in the order they happen. -/
def operations (p : Program) (e : ExprId) : Lowered (List Operation) :=
  unroll (throwThe Fault .endless) p.operationsStep p.exprDepth e

end Program

/-! ### Drafts -/

/-- An edge whose target is yet to come. -/
abbrev OpenEdge := NodeId × Option Label

/-- A graph being made. -/
structure Draft where
  graph : Graph := {}
  /-- The edges that will enter the next node. -/
  pending : List OpenEdge := []
  /-- The edges that will enter the end of the method. -/
  toEnd : List OpenEdge := []
  /-- The innermost statement or block node around the next node. -/
  parent : Option NodeId := none

namespace Draft

/-- Joins open edges to a node. -/
def joinTo (target : NodeId) (edges : List OpenEdge) (g : Graph) : Graph :=
  edges.foldl (fun g (source, label) => g.addEdge source target label) g

/-- The handle of the next node. -/
def next (d : Draft) : NodeId := d.graph.nodes.next

/-- One more node: every pending edge enters it, and the one edge pending then is its own. -/
def add (d : Draft) (kind : NodeKind) (origin : Origin) : Draft :=
  let g := d.graph.addNode { kind, origin, parent := d.parent }
  let g := { g with entry := g.entry.or (some d.next) }
  { d with graph := joinTo d.next d.pending g, pending := [(d.next, none)] }

/-- One more operation. A call that may throw comes after a node where the way parts. -/
def addOperation (mayThrow : Bool) (d : Draft) (o : Operation) : Draft :=
  match o.kind with
  | .call e =>
    if mayThrow then
      let parting := d.next
      let d := d.add (.optionalThrow e) (.expr o.expr)
      let d : Draft := { d with
        toEnd := d.toEnd ++ [(parting, some .throws)]
        pending := [(parting, some .noThrow)] }
      d.add o.kind (.expr o.expr)
    else d.add o.kind (.expr o.expr)
  | _ => d.add o.kind (.expr o.expr)

/-- More operations, one after the other. -/
def addOperations (mayThrow : Bool) (d : Draft) (os : List Operation) : Draft :=
  os.foldl (addOperation mayThrow) d

/-- The node of a statement or block, which is around the nodes that follow. -/
def enter (d : Draft) (kind : NodeKind) (s : StmtId) : Draft :=
  { d.add kind (.stmt s) with parent := some d.next }

end Draft

namespace Program

/-! ### Statements -/

/-- The draft with the operations of an expression of a method. -/
def lowerExpr (p : Program) (d : Draft) (e : ExprId) : Lowered Draft :=
  return d.addOperations true (← p.operations e)

/-- One level of lowering a statement: the draft with the nodes of a statement, those of
    the statements inside it laid out by `self`. -/
def lowerStep (p : Program) (self : StmtId → Draft → Lowered Draft) (s : StmtId) (d : Draft) :
    Lowered Draft := do
  let around := d.parent
  let d ← match ← p.stmts.get s with
    | .block stmts => stmts.foldlM (fun d child => self child d) (d.enter .block s)
    | .declare v init =>
      let d := d.enter .statement s
      match init with
      | some e => do pure ((← p.lowerExpr d e).add (.write v e) (.stmt s))
      | none => pure d
    | .expr e => p.lowerExpr (d.enter .statement s) e
    | .branch condition thenStmt elseStmt => do
      let d ← p.lowerExpr (d.enter .statement s) condition
      let parting := d.next
      let d := d.add (.conditional condition) (.stmt s)
      let d ← self thenStmt { d with pending := [(parting, some .thenBranch)] }
      let afterThen := d.pending
      let d := { d with pending := [(parting, some .elseBranch)] }
      let d ← match elseStmt with
        | some s => self s d
        | none => pure d
      pure { d with pending := d.pending ++ afterThen }
    | .loop condition body => do
      let d := d.enter .statement s
      let header := d.next
      let d ← p.lowerExpr d condition
      let parting := d.next
      let d := d.add (.conditional condition) (.stmt s)
      let d ← self body { d with pending := [(parting, some .thenBranch)] }
      pure { d with
        graph := Draft.joinTo header d.pending d.graph
        pending := [(parting, some .elseBranch)] }
    | .ret value => do
      let d := d.enter .statement s
      let d ← match value with
        | some e => p.lowerExpr d e
        | none => pure d
      let jump := d.next
      let d := d.add .goto (.stmt s)
      pure { d with toEnd := d.toEnd ++ [(jump, none)], pending := [] }
  return { d with parent := around }

/-- The draft with the nodes of a statement. -/
def lower (p : Program) (s : StmtId) (d : Draft) : Lowered Draft :=
  unroll (fun _ => throwThe Fault .endless) p.lowerStep p.stmtDepth s d

end Program

namespace Graph

/-- The graph of a method body. It ends at its last node, which is entered by whatever
    falls off the end of the body, then by every return and every call that throws. -/
def ofBody (p : Program) (body : StmtId) : Run (Except Error Graph) := ExceptT.run do
  let d ← p.lower body {}
  let last := d.next
  let d := d.add .finish .none
  return { Draft.joinTo last d.toEnd d.graph with exit := some last }

/-- The graph of the body of a method, which has to have one. -/
def ofMethod (p : Program) (m : MethodId) : Run (Except Error Graph) := do
  let decl ← p.methods.get m
  match decl.body with
  | some body => ofBody p body
  | none => return .error (.noBody decl.name)

/-- The graph of an expression: a chain of its operations. If the last of them is not that
    of the expression itself, a node that stands for it comes after them. -/
def ofExpr (p : Program) (e : ExprId) : Run (Except Error Graph) := ExceptT.run do
  let os ← p.operations e
  let d := Draft.addOperations false {} os
  let d := if os.getLast?.map Operation.expr = some e then d else d.add .nop (.expr e)
  return { d.graph with exit := d.graph.order.getLast? }

end Graph

end Dataflow
