import Dataflow.Program.Basic
import Dataflow.Text.Quoted

/-!
# Constructor forms

The form of a value is how it was made: the name of its constructor, then its
parts in parentheses, handles by their text. Reports name expressions,
statements and types by their forms.
-/

namespace Dataflow

/-- The form of a constructor with parts. -/
def formOf (constructor : String) (parts : List String) : String :=
  constructor ++ "(" ++ ", ".intercalate parts ++ ")"

/-- The form of an optional part, from that of the part. -/
def optionForm : Option String → String
  | none => "None"
  | some part => formOf "Some" [part]

/-- The form of a list, from those of its members. -/
def listForm (parts : List String) : String := "[" ++ ", ".intercalate parts ++ "]"

def Ty.form : Ty → String
  | int => "Int"
  | boolean => "Boolean"
  | void => "Void"
  | object className => formOf "Class" [Text.quote className]
  | array element => formOf "Array" [element.form]

def VarKind.form : VarKind → String
  | ofMethod => "Local"
  | parameter => "Param"
  | field => "Field"

def UnaryOp.form : UnaryOp → String
  | neg => "Neg"
  | not => "Not"

def BinaryOp.form : BinaryOp → String
  | add => "Add"
  | sub => "Sub"
  | mul => "Mul"
  | div => "Div"
  | rem => "Rem"
  | lt => "Lt"
  | le => "Le"
  | gt => "Gt"
  | ge => "Ge"
  | eq => "Eq"
  | ne => "Ne"
  | bitAnd => "BitAnd"
  | bitOr => "BitOr"

def IncrementOp.form : IncrementOp → String
  | preInc => "PreInc"
  | preDec => "PreDec"
  | postInc => "PostInc"
  | postDec => "PostDec"

def Expr.form : Expr → String
  | int value => formOf "Int" [toString value.toInt]
  | bool value => formOf "Bool" [if value then "true" else "false"]
  | null => "Null"
  | var v => formOf "VarRef" [v.text]
  | field object v => formOf "FieldRef" [object.text, v.text]
  | unary op operand => formOf "Unary" [op.form, operand.text]
  | binary op lhs rhs => formOf "Binary" [op.form, lhs.text, rhs.text]
  | assign target value => formOf "Assign" [target.text, value.text]
  | compound op target value => formOf "CompoundAssign" [op.form, target.text, value.text]
  | increment op target => formOf "Increment" [op.form, target.text]
  | call method receiver args =>
    formOf "Call" [method.text, optionForm (receiver.map Handle.text),
      listForm (args.map Handle.text)]
  | newObject className => formOf "NewInstance" [Text.quote className]
  | newArray element length => formOf "NewArray" [element.form, length.text]

def Stmt.form : Stmt → String
  | block stmts => formOf "Block" [listForm (stmts.map Handle.text)]
  | declare v init => formOf "Decl" [v.text, optionForm (init.map Handle.text)]
  | expr e => formOf "Expr" [e.text]
  | branch condition thenStmt elseStmt =>
    formOf "If" [condition.text, thenStmt.text, optionForm (elseStmt.map Handle.text)]
  | loop condition body => formOf "While" [condition.text, body.text]
  | ret value => formOf "Return" [optionForm (value.map Handle.text)]

end Dataflow
