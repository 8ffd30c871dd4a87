import Dataflow.HandleMap
import Dataflow.Program.Basic

/-!
# Evaluating a method

The meaning of a method is given by an evaluator. All values are 64-bit integers
that wrap around; a variable never written holds zero. A call runs no body: a
pure method gives a fixed function of its arguments, and one with side effects
records their sum and gives the number of calls recorded before it. What an
outsider sees of a run is the value returned and the calls recorded.

Each statement and each expression costs one unit of fuel, so that a run always
comes to an end. Fuel is a natural number of any size, where a machine would count
it in 64 bits; since it is only ever counted down, the two agree on every fuel
below `2 ^ 64`.

* `Program.evalExpr`, `Program.evalStmt`: one expression, one statement, in a state;
* `Program.evaluate`: a method, with arguments.
-/

namespace Dataflow

/-- Why a run was given up. -/
inductive Halt where
  | outOfFuel
  /-- A quotient that does not exist, or that is too large. -/
  | division
  /-- An expression that the evaluator gives no meaning to. -/
  | unmodelled
  deriving DecidableEq

/-- The state of a run. -/
structure Machine where
  env : HandleMap "var" Int64 := {}
  /-- The calls recorded, each with the sum of its arguments. -/
  effects : Array Int64 := #[]
  /-- The units of fuel left, of which there may be more than a 64-bit counter can hold. -/
  fuel : Nat

/-- A part of a run: it changes the state, and gives a value unless the run is given up. -/
abbrev Eval (α : Type) := ExceptT Halt (StateT Machine Run) α

/-- How a statement ends. -/
inductive Completion where
  | normal
  | returned (value : Option Int64)
  deriving DecidableEq

/-- What an outsider sees of a run. -/
structure Outcome where
  /-- The value returned, if any. -/
  value : Option Int64
  effects : List Int64
  deriving DecidableEq

/-- The number that a truth value counts as. -/
def ofTruth (b : Bool) : Int64 := if b then 1 else 0

/-- The value of a unary operation. -/
def UnaryOp.eval : UnaryOp → Int64 → Int64
  | neg, a => -a
  | not, a => ofTruth (a = 0)

/-- Whether `a` can be divided by `b`: there is a quotient, and it is a 64-bit integer. -/
def divides (a b : Int64) : Bool := b ≠ 0 ∧ ¬(a = Int64.minValue ∧ b = -1)

/-- The value of a binary operation, if it has one. Division rounds toward zero. -/
def BinaryOp.eval : BinaryOp → Int64 → Int64 → Option Int64
  | add, a, b => some (a + b)
  | sub, a, b => some (a - b)
  | mul, a, b => some (a * b)
  | div, a, b => if divides a b then some (a / b) else none
  | rem, a, b => if divides a b then some (a % b) else none
  | lt, a, b => some (ofTruth (a < b))
  | le, a, b => some (ofTruth (a ≤ b))
  | gt, a, b => some (ofTruth (b < a))
  | ge, a, b => some (ofTruth (b ≤ a))
  | eq, a, b => some (ofTruth (a = b))
  | ne, a, b => some (ofTruth (a ≠ b))
  | bitAnd, a, b => some (a &&& b)
  | bitOr, a, b => some (a ||| b)

namespace IncrementOp

/-- The value of a variable after an increment. -/
def eval : IncrementOp → Int64 → Int64
  | preInc, a | postInc, a => a + 1
  | preDec, a | postDec, a => a - 1

/-- Whether the value of an increment is the new value of the variable. -/
def isLeading : IncrementOp → Bool
  | preInc | preDec => true
  | postInc | postDec => false

end IncrementOp

namespace Eval

/-- Spends one unit of fuel. -/
def spend : Eval Unit := do
  let s ← get
  match s.fuel with
  | 0 => throw .outOfFuel
  | fuel + 1 => set { s with fuel }

/-- The value of a variable. -/
def read (v : VarId) : Eval Int64 := return ((← get).env.find? v).getD 0

/-- Writes a variable. -/
def write (v : VarId) (value : Int64) : Eval Unit :=
  modify fun s => { s with env := s.env.insert v value }

/-- The value of an operation, which has to have one. -/
def orDivision : Option Int64 → Eval Int64
  | some value => return value
  | none => throw .division

/-- Records a call with side effects, and gives the number of calls recorded before it. -/
def record (sum : Int64) : Eval Int64 :=
  modifyGet fun s => (Int64.ofNat s.effects.size, { s with effects := s.effects.push sum })

/-- A loop: the body runs as long as the condition is not zero, `bound` times at most. -/
def loop (condition : Eval Int64) (body : Eval Completion) : (bound : Nat) → Eval Completion
  | 0 => throw .outOfFuel
  | bound + 1 => do
    if (← condition) = 0 then return .normal
    match ← body with
    | .returned value => return .returned value
    | .normal => loop condition body bound

/-- Statements one after the other, until one of them returns. -/
def sequence (self : StmtId → Eval Completion) : List StmtId → Eval Completion
  | [] => return .normal
  | s :: rest => do
    match ← self s with
    | .returned value => return .returned value
    | .normal => sequence self rest

end Eval

namespace Program

open Eval

/-- The variable that an assignment to `target` writes. -/
def evalTarget (p : Program) (target : ExprId) : Eval VarId := do
  match (← p.exprs.get target).namedVar with
  | some v => return v
  | none => throw .unmodelled

/-- One level of `evalExpr`: the value of an expression from those of its operands. -/
def evalExprStep (p : Program) (self : ExprId → Eval Int64) (e : ExprId) : Eval Int64 := do
  spend
  match ← p.exprs.get e with
  | .int value => return value
  | .bool value => return ofTruth value
  | .null => return 0
  | .var v => read v
  | .unary op operand => return op.eval (← self operand)
  | .binary op lhs rhs =>
    let a ← self lhs
    let b ← self rhs
    orDivision (op.eval a b)
  | .assign target value =>
    let v ← p.evalTarget target
    let a ← self value
    write v a
    return a
  | .compound op target value =>
    let v ← p.evalTarget target
    let old ← read v
    let a ← orDivision (op.eval old (← self value))
    write v a
    return a
  | .increment op target =>
    let v ← p.evalTarget target
    let old ← read v
    write v (op.eval old)
    return if op.isLeading then op.eval old else old
  | .call method none args =>
    let values ← args.mapM self
    let sum := values.foldl (· + ·) 0
    if (← p.methods.get method).isPure then return sum * 31 + 7
    record sum
  | .call _ (some _) _ | .field .. | .newObject _ | .newArray .. => throw .unmodelled

/-- The value of an expression. Each level spends fuel, so the levels that the fuel pays
    for are all there can be. -/
def evalExpr (p : Program) (e : ExprId) : Eval Int64 := do
  unroll (throw .outOfFuel) p.evalExprStep ((← get).fuel + 1) e

/-- One level of `evalStmt`: how a statement ends, from how those inside it do. -/
def evalStmtStep (p : Program) (self : StmtId → Eval Completion) (s : StmtId) :
    Eval Completion := do
  spend
  match ← p.stmts.get s with
  | .block stmts => sequence self stmts
  | .declare v (some e) =>
    write v (← p.evalExpr e)
    return .normal
  | .declare _ none => return .normal
  | .expr e =>
    let _ ← p.evalExpr e
    return .normal
  | .branch condition thenStmt elseStmt =>
    if (← p.evalExpr condition) ≠ 0 then self thenStmt
    else match elseStmt with
      | some s => self s
      | none => return .normal
  | .loop condition body => loop (p.evalExpr condition) (self body) ((← get).fuel + 1)
  | .ret (some e) => return .returned (some (← p.evalExpr e))
  | .ret none => return .returned none

/-- How a statement ends. -/
def evalStmt (p : Program) (s : StmtId) : Eval Completion := do
  unroll (throw .outOfFuel) p.evalStmtStep ((← get).fuel + 1) s

/-- The state in which the body of a method starts: its parameters hold the arguments, as
    far as there are any. -/
def enterMethod (m : Method) (args : List Int64) (fuel : Nat) : Machine where
  env := (m.params.zip args).foldl (fun env (v, a) => env.insert v a) {}
  fuel

/-- A run of a method with arguments: what is seen of it, unless it is given up or the
    method has no body. The fuel may be any number, also one past 64 bits. -/
def evaluate (p : Program) (m : MethodId) (args : List Int64) (fuel : Nat) :
    Run (Option Outcome) := do
  let decl ← p.methods.get m
  match decl.body with
  | none => return none
  | some body =>
    match ← (p.evalStmt body).run.run (enterMethod decl args fuel) with
    | (.error _, _) => return none
    | (.ok completion, s) =>
      let value := match completion with
        | .normal => none
        | .returned value => value
      return some { value, effects := s.effects.toList }

end Program

end Dataflow
