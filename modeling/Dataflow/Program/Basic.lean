import Dataflow.Arena

/-!
# Programs

A program keeps its variables, methods, expressions and statements in four
arenas. Expressions refer to their operands, and statements to their parts, by
handle, so replacing a part is a write into an arena. Nothing else is asked of
the handles: a part may be shared, may come later in its arena than what refers
to it, and may be missing.

* `Expr`, `Stmt`: one expression or statement, with handles to its parts;
* `Program`: the four arenas;
* `Expr.operands`, `Stmt.exprs`, `Stmt.children`: the parts, in the order they are evaluated;
* `Expr.mapOperands`, `Stmt.mapExprs`: a change of the parts, in that order.
-/

namespace Dataflow

abbrev VarId := Handle "var"
abbrev MethodId := Handle "method"
abbrev ExprId := Handle "expr"
abbrev StmtId := Handle "stmt"

/-- The types of variables and methods; they only matter to what is printed. -/
inductive Ty where
  | int
  | boolean
  | void
  | object (className : String)
  | array (element : Ty)
  deriving DecidableEq

/-- Where a variable lives. -/
inductive VarKind where
  /-- A variable declared in a method. -/
  | ofMethod
  /-- A parameter of a method. -/
  | parameter
  /-- A field, static or of an object. Any call may change it. -/
  | field
  deriving DecidableEq

structure Variable where
  name : String
  type : Ty
  kind : VarKind
  deriving DecidableEq

structure Method where
  name : String
  returns : Ty
  params : List VarId
  /-- Whether the method is declared free of side effects. -/
  isPure : Bool
  body : Option StmtId
  deriving DecidableEq

inductive UnaryOp where
  | neg
  | not
  deriving DecidableEq

inductive BinaryOp where
  | add
  | sub
  | mul
  | div
  | rem
  | lt
  | le
  | gt
  | ge
  | eq
  | ne
  | bitAnd
  | bitOr
  deriving DecidableEq

inductive IncrementOp where
  | preInc
  | preDec
  | postInc
  | postDec
  deriving DecidableEq

/-- An expression, with handles to its operands. -/
inductive Expr where
  | int (value : Int64)
  | bool (value : Bool)
  | null
  /-- The value of a local variable, a parameter or a static field. -/
  | var (v : VarId)
  /-- The value of a field of an object. -/
  | field (object : ExprId) (v : VarId)
  | unary (op : UnaryOp) (operand : ExprId)
  | binary (op : BinaryOp) (lhs rhs : ExprId)
  | assign (target value : ExprId)
  /-- An assignment that combines the old value of the target with `value`. -/
  | compound (op : BinaryOp) (target value : ExprId)
  | increment (op : IncrementOp) (target : ExprId)
  | call (method : MethodId) (receiver : Option ExprId) (args : List ExprId)
  /-- A new object, made and then given to its constructor. -/
  | newObject (className : String)
  | newArray (element : Ty) (length : ExprId)
  deriving DecidableEq

/-- A statement, with handles to its parts. -/
inductive Stmt where
  | block (stmts : List StmtId)
  | declare (v : VarId) (init : Option ExprId)
  | expr (e : ExprId)
  | branch (condition : ExprId) (thenStmt : StmtId) (elseStmt : Option StmtId)
  | loop (condition : ExprId) (body : StmtId)
  | ret (value : Option ExprId)
  deriving DecidableEq

/-- A program: the arenas that all its method bodies share. -/
structure Program where
  vars : Arena "var" Variable := {}
  methods : Arena "method" Method := {}
  exprs : Arena "expr" Expr := {}
  stmts : Arena "stmt" Stmt := {}
  deriving DecidableEq

namespace Expr

/-- The operands of an expression, in the order they are evaluated. -/
def operands : Expr → List ExprId
  | int _ | bool _ | null | var _ | newObject _ => []
  | field object _ => [object]
  | unary _ operand => [operand]
  | binary _ lhs rhs => [lhs, rhs]
  | assign target value | compound _ target value => [target, value]
  | increment _ target => [target]
  | call _ receiver args => receiver.toList ++ args
  | newArray _ length => [length]

/-- The expression with each operand changed by `f`, in the order they are evaluated. -/
def mapOperands {m : Type → Type} [Monad m] (f : ExprId → m ExprId) : Expr → m Expr
  | int value => return int value
  | bool value => return bool value
  | null => return null
  | var v => return var v
  | field object v => return field (← f object) v
  | unary op operand => return unary op (← f operand)
  | binary op lhs rhs => return binary op (← f lhs) (← f rhs)
  | assign target value => return assign (← f target) (← f value)
  | compound op target value => return compound op (← f target) (← f value)
  | increment op target => return increment op (← f target)
  | call method receiver args => return call method (← receiver.mapM f) (← args.mapM f)
  | newObject className => return newObject className
  | newArray element length => return newArray element (← f length)

/-- Whether the expression itself makes a new object or array. -/
def isAllocation : Expr → Bool
  | newObject _ | newArray .. => true
  | _ => false

/-- The variable that the expression itself names, and that an assignment to it writes. -/
def namedVar : Expr → Option VarId
  | var v | field _ v => some v
  | _ => none

end Expr

namespace Stmt

/-- The expressions a statement owns itself. -/
def exprs : Stmt → List ExprId
  | block _ => []
  | declare _ init => init.toList
  | expr e => [e]
  | branch condition .. | loop condition _ => [condition]
  | ret value => value.toList

/-- The statement with each expression it owns itself changed by `f`. -/
def mapExprs {m : Type → Type} [Monad m] (f : ExprId → m ExprId) : Stmt → m Stmt
  | block stmts => return block stmts
  | declare v init => return declare v (← init.mapM f)
  | expr e => return expr (← f e)
  | branch condition thenStmt elseStmt => return branch (← f condition) thenStmt elseStmt
  | loop condition body => return loop (← f condition) body
  | ret value => return ret (← value.mapM f)

/-- The statements inside a statement, in order. -/
def children : Stmt → List StmtId
  | block stmts => stmts
  | branch _ thenStmt elseStmt => thenStmt :: elseStmt.toList
  | loop _ body => [body]
  | declare .. | expr _ | ret _ => []

end Stmt

namespace Program

/-- The program with one more variable. -/
def addVar (p : Program) (v : Variable) : Program := { p with vars := p.vars.push v }

/-- The program with one more method. -/
def addMethod (p : Program) (m : Method) : Program := { p with methods := p.methods.push m }

/-- The program with one more expression. -/
def addExpr (p : Program) (e : Expr) : Program := { p with exprs := p.exprs.push e }

/-- The program with one more statement. -/
def addStmt (p : Program) (s : Stmt) : Program := { p with stmts := p.stmts.push s }

/-- The program with the body of a method set. -/
def setBody (p : Program) (m : MethodId) (body : StmtId) : Run Program := do
  let decl ← p.methods.get m
  return { p with methods := ← p.methods.set m { decl with body := some body } }

/-- The name of a variable. -/
def varName (p : Program) (v : VarId) : Run String := return (← p.vars.get v).name

/-- The methods that have a body, in order, each with its body. -/
def bodies (p : Program) : List (MethodId × StmtId) :=
  p.methods.entries.filterMap fun (m, decl) => decl.body.map fun body => (m, body)

/-- How deep expressions may nest: see `unroll`. -/
def exprDepth (p : Program) : Nat := p.exprs.size + 1

/-- How deep statements may nest: see `unroll`. -/
def stmtDepth (p : Program) : Nat := p.stmts.size + 1

end Program

end Dataflow
