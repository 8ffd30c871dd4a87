import Dataflow.Program.Walk

/-!
# Side effects

An analysis asks an `Oracle` which expressions may be evaluated again, or not at
all, without anyone noticing, and which variables only change where the program
says so. `Oracle.declared` believes what methods declare about themselves.
-/

namespace Dataflow

/-- Answers about side effects and variables, for every program. -/
structure Oracle where
  /-- Whether evaluating an expression, with all its operands, may have a side effect. -/
  mayHaveEffects : Program → ExprId → Run Bool
  /-- Whether a call may have a side effect, its operands aside. -/
  callHasEffects : Program → ExprId → Run Bool
  /-- Whether the value of a variable can be tracked. -/
  isTrackable : Program → VarId → Run Bool

namespace Program

/-- Whether a variable is local to a method or a parameter. -/
def isOfMethod (p : Program) (v : VarId) : Run Bool := do
  match (← p.vars.get v).kind with
  | .ofMethod | .parameter => return true
  | .field => return false

/-- Whether a call is one of a method not declared pure. A constructor always has
    side effects; what is no call has none. -/
def callIsImpure (p : Program) (call : ExprId) : Run Bool := do
  match ← p.exprs.get call with
  | .call method .. => return !(← p.methods.get method).isPure
  | .newObject _ => return true
  | _ => return false

/-- Whether an expression, its operands aside, assigns or makes an impure call. -/
def isImpureAlone (p : Program) (e : ExprId) (expr : Expr) : Run Bool :=
  match expr with
  | .assign .. | .compound .. | .increment .. => return true
  | .call .. | .newObject _ => p.callIsImpure e
  | _ => return false

/-- Whether an expression assigns or makes an impure call anywhere inside it. -/
def isImpure (p : Program) (e : ExprId) : Run Bool := do
  let impure ← (← p.subexprs e).mapM fun (sub, expr) => p.isImpureAlone sub expr
  return impure.any id

end Program

namespace Oracle

/-- Believes what methods declare: a call is free of side effects if its method is
    declared pure, constructors and assignments of every form are not. Variables
    of a method are trackable, fields are not. -/
def declared : Oracle where
  mayHaveEffects := Program.isImpure
  callHasEffects := Program.callIsImpure
  isTrackable := Program.isOfMethod

/-- As `declared`, and tracks fields, too. -/
def trackingFields : Oracle := { declared with isTrackable := fun _ _ => return true }

/-- Expects side effects everywhere. -/
def distrustful : Oracle :=
  { declared with
    mayHaveEffects := fun _ _ => return true
    callHasEffects := fun _ _ => return true }

end Oracle

end Dataflow
