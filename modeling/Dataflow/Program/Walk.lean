import Dataflow.Program.Basic

/-!
# Subexpressions

`Program.subexprs` lists an expression and everything inside it, each before its
operands and as often as it is reached. The questions asked about an expression
as a whole are questions about that list.
-/

namespace Dataflow.Program

/-- One level of `subexprs`: the expression, then what `self` lists for each operand. -/
def subexprsStep (p : Program) (self : ExprId → Run (List (ExprId × Expr))) (e : ExprId) :
    Run (List (ExprId × Expr)) := do
  let expr ← p.exprs.get e
  let below ← expr.operands.mapM self
  return (e, expr) :: below.flatten

/-- An expression and all its subexpressions, each before its operands. -/
def subexprs (p : Program) (e : ExprId) : Run (List (ExprId × Expr)) :=
  unroll (throw .endless) p.subexprsStep p.exprDepth e

/-- Whether an expression reads or writes `v` anywhere inside it. -/
def references (p : Program) (e : ExprId) (v : VarId) : Run Bool :=
  return (← p.subexprs e).any fun (_, expr) => expr.namedVar == some v

/-- Whether an expression allocates anywhere inside it. -/
def allocates (p : Program) (e : ExprId) : Run Bool :=
  return (← p.subexprs e).any fun (_, expr) => expr.isAllocation

end Dataflow.Program
