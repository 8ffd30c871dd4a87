import Dataflow.Program.Basic
import Dataflow.Text.Lines

/-!
# Source text

Programs are printed as source text: expressions with as few parentheses as the
precedence of operators allows (binary operators group to the left), statements
one to a line and indented by two blanks for each brace around them.

* `Program.showExpr`, `Program.showStmt`: the text of an expression, of a statement;
* `Program.bodyLines`: the lines of a method's body, without its own braces.
-/

namespace Dataflow

/-- The text of a type. -/
def Ty.show : Ty → String
  | int => "int"
  | boolean => "boolean"
  | void => "void"
  | object className => className
  | array element => element.show ++ "[]"

def UnaryOp.symbol : UnaryOp → String
  | neg => "-"
  | not => "!"

namespace BinaryOp

def symbol : BinaryOp → String
  | add => "+"
  | sub => "-"
  | mul => "*"
  | div => "/"
  | rem => "%"
  | lt => "<"
  | le => "<="
  | gt => ">"
  | ge => ">="
  | eq => "=="
  | ne => "!="
  | bitAnd => "&"
  | bitOr => "|"

/-- How tightly an operator binds. -/
def precedence : BinaryOp → Nat
  | bitOr => 5
  | bitAnd => 7
  | eq | ne => 8
  | lt | le | gt | ge => 9
  | add | sub => 11
  | mul | div | rem => 12

end BinaryOp

namespace Precedence

/-- How tightly assignments bind: least of all. -/
def assignment : Nat := 1

/-- How tightly operators in front of their operand bind. -/
def leading : Nat := 13

/-- How tightly operators behind their operand bind. -/
def trailing : Nat := 14

/-- How tightly everything else holds together. -/
def primary : Nat := 15

end Precedence

/-- How tightly the outermost operator of an expression binds. -/
def Expr.precedence : Expr → Nat
  | assign .. | compound .. => Precedence.assignment
  | binary op .. => op.precedence
  | unary .. | increment .preInc _ | increment .preDec _ => Precedence.leading
  | increment .postInc _ | increment .postDec _ => Precedence.trailing
  | _ => Precedence.primary

namespace Program

/-! ### Expressions -/

/-- The text of an operand, given by `self`, in parentheses if it binds less tightly
    than `least`. -/
def showOperand (p : Program) (self : ExprId → Run String) (least : Nat) (e : ExprId) :
    Run String := do
  let expr ← p.exprs.get e
  let text ← self e
  return if expr.precedence < least then "(" ++ text ++ ")" else text

/-- One level of `showExpr`: the text of an expression from that of its operands. -/
def showExprStep (p : Program) (self : ExprId → Run String) (e : ExprId) : Run String := do
  let operand := p.showOperand self
  match ← p.exprs.get e with
  | .int value => return toString value.toInt
  | .bool value => return if value then "true" else "false"
  | .null => return "null"
  | .var v => p.varName v
  | .field object v => return (← operand Precedence.trailing object) ++ "." ++ (← p.varName v)
  | .unary op x => return op.symbol ++ (← operand Precedence.leading x)
  | .binary op lhs rhs =>
    return (← operand op.precedence lhs) ++ " " ++ op.symbol ++ " " ++
      (← operand (op.precedence + 1) rhs)
  | .assign target value =>
    return (← operand (Precedence.assignment + 1) target) ++ " = " ++
      (← operand Precedence.assignment value)
  | .compound op target value =>
    return (← operand (Precedence.assignment + 1) target) ++ " " ++ op.symbol ++ "= " ++
      (← operand Precedence.assignment value)
  | .increment .preInc target => return "++" ++ (← operand Precedence.leading target)
  | .increment .preDec target => return "--" ++ (← operand Precedence.leading target)
  | .increment .postInc target => return (← operand Precedence.trailing target) ++ "++"
  | .increment .postDec target => return (← operand Precedence.trailing target) ++ "--"
  | .call method receiver args =>
    let before ← match receiver with
      | some object => do pure ((← operand Precedence.trailing object) ++ ".")
      | none => pure ""
    let decl ← p.methods.get method
    let texts ← args.mapM (operand Precedence.assignment)
    return before ++ decl.name ++ "(" ++ ", ".intercalate texts ++ ")"
  | .newObject className => return "new " ++ className ++ "()"
  | .newArray element length => return "new " ++ element.show ++ "[" ++ (← self length) ++ "]"

/-- The source text of an expression. -/
def showExpr (p : Program) (e : ExprId) : Run String :=
  unroll (throw .endless) p.showExprStep p.exprDepth e

/-! ### Statements -/

/-- The texts of statements one level further in, given by `self`. -/
def showInside (self : StmtId → String → Run String) (stmts : List StmtId) (indent : String) :
    Run String := do
  let texts ← stmts.mapM fun s => self s (indent ++ "  ")
  return String.join texts

/-- The text of a statement between the braces of another one: a block puts its
    statements there, without braces of its own. -/
def showNested (p : Program) (self : StmtId → String → Run String) (s : StmtId)
    (indent : String) : Run String := do
  match ← p.stmts.get s with
  | .block stmts => showInside self stmts indent
  | _ => self s (indent ++ "  ")

/-- One level of `showStmt`: the text of a statement from that of its parts. -/
def showStmtStep (p : Program) (self : StmtId → String → Run String) (s : StmtId)
    (indent : String) : Run String := do
  match ← p.stmts.get s with
  | .block stmts =>
    return indent ++ "\x7b\n" ++ (← showInside self stmts indent) ++ indent ++ "\x7d\n"
  | .declare v init =>
    let decl ← p.vars.get v
    let value ← match init with
      | some e => do pure (" = " ++ (← p.showExpr e))
      | none => pure ""
    return indent ++ decl.type.show ++ " " ++ decl.name ++ value ++ ";\n"
  | .expr e => return indent ++ (← p.showExpr e) ++ ";\n"
  | .ret (some e) => return indent ++ "return " ++ (← p.showExpr e) ++ ";\n"
  | .ret none => return indent ++ "return;\n"
  | .branch condition thenStmt elseStmt =>
    let head := indent ++ "if (" ++ (← p.showExpr condition) ++ ") \x7b\n"
    let thenText ← p.showNested self thenStmt indent
    let elseText ← match elseStmt with
      | some s => do pure (indent ++ "\x7d else \x7b\n" ++ (← p.showNested self s indent))
      | none => pure ""
    return head ++ thenText ++ elseText ++ indent ++ "\x7d\n"
  | .loop condition body =>
    let head := indent ++ "while (" ++ (← p.showExpr condition) ++ ") \x7b\n"
    return head ++ (← p.showNested self body indent) ++ indent ++ "\x7d\n"

/-- The source text of a statement, every line of it after `indent`. -/
def showStmt (p : Program) (s : StmtId) (indent : String) : Run String :=
  unroll (fun _ => throw .endless) p.showStmtStep p.stmtDepth s indent

/-- The source lines of the body of a method; a block leaves out its own braces. -/
def bodyLines (p : Program) (m : MethodId) : Run (List String) := do
  match (← p.methods.get m).body with
  | none => return []
  | some body =>
    let stmts := match ← p.stmts.get body with
      | .block stmts => stmts
      | _ => [body]
    let texts ← stmts.mapM fun s => p.showStmt s ""
    return Text.lines (String.join texts)

end Program

end Dataflow
