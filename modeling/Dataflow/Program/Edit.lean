import Dataflow.Program.Basic

/-!
# Copying and substituting expressions

* `Program.cloneExpr` copies an expression with all its operands into fresh
  slots, so that the copy may stand anywhere;
* `Program.replaceExpr` makes every slot beneath a statement that holds one
  expression hold another one instead, and counts these slots.
-/

namespace Dataflow.Program

/-! ### Copies -/

/-- One level of `cloneExpr`: the operands are copied by `self`, then the expression. -/
def cloneStep (self : ExprId → StateT Program Run ExprId) (e : ExprId) :
    StateT Program Run ExprId := do
  let expr ← (← get).exprs.get e
  let copy ← expr.mapOperands self
  modifyGet fun p => (p.exprs.next, p.addExpr copy)

/-- A copy of an expression and of everything inside it, in fresh slots: operands
    first, the expression itself last. -/
def cloneExpr (p : Program) (e : ExprId) : Run (ExprId × Program) :=
  unroll (throw .endless) cloneStep p.exprDepth e p

/-! ### Substitution -/

/-- A program under substitution, with the number of slots rewritten so far. -/
structure Substitution where
  program : Program
  count : Nat := 0

/-- The new content of a slot: a slot that holds `target` now holds `replacement`;
    in any other, substitution goes on inside what it holds. -/
def substituteSlot (target replacement : ExprId) (inside : ExprId → StateT Substitution Run Unit)
    (slot : ExprId) : StateT Substitution Run ExprId := do
  if slot = target then
    modify fun s => { s with count := s.count + 1 }
    return replacement
  else
    inside slot
    return slot

/-- One level of substitution in an expression: its operand slots, in order. -/
def substituteExprStep (target replacement : ExprId)
    (self : ExprId → StateT Substitution Run Unit) (e : ExprId) :
    StateT Substitution Run Unit := do
  let expr ← (← get).program.exprs.get e
  let expr ← expr.mapOperands (substituteSlot target replacement self)
  let s ← get
  let exprs ← s.program.exprs.set e expr
  set { s with program := { s.program with exprs } }

/-- Substitution inside an expression. -/
def substituteExpr (target replacement : ExprId) (e : ExprId) : StateT Substitution Run Unit := do
  unroll (throw .endless) (substituteExprStep target replacement)
    (← get).program.exprDepth e

/-- One level of substitution in a statement: its own expressions, then the
    statements inside it. -/
def substituteStmtStep (target replacement : ExprId)
    (self : StmtId → StateT Substitution Run Unit) (root : StmtId) :
    StateT Substitution Run Unit := do
  let stmt ← (← get).program.stmts.get root
  let stmt ← stmt.mapExprs (substituteSlot target replacement (substituteExpr target replacement))
  let s ← get
  let stmts ← s.program.stmts.set root stmt
  set { s with program := { s.program with stmts } }
  stmt.children.forM self

/-- The program with every slot beneath `root` that holds `target` holding
    `replacement` instead, and the number of slots rewritten. -/
def replaceExpr (p : Program) (root : StmtId) (target replacement : ExprId) :
    Run (Nat × Program) := do
  let (_, s) ← unroll (throw .endless) (substituteStmtStep target replacement) p.stmtDepth root
    { program := p }
  return (s.count, s.program)

end Dataflow.Program
