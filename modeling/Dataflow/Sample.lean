import Dataflow.Program.Basic

/-!
# Sample programs

A program can be made by choices, each of them a number up to some bound. Such a
program has one method with a body, which works on two parameters and three
local variables and calls a pure method and one with side effects. What to make
after each choice is a `Plan`, which any source of numbers can answer. A row of
bytes is one: each choice takes the next byte (or a zero byte when there are none
left).

* `Plan`: something made by choices;
* `Sample.planned`: the sample programs, as a plan;
* `Sample.ofBytes`: the program of a row of bytes.
-/

namespace Dataflow

/-- Something made by choices: what comes after a choice depends on the number chosen. -/
inductive Plan (α : Type) where
  | done (a : α)
  /-- A choice among the numbers from 0 to `most`. -/
  | ask (most : Nat) (next : Fin (most + 1) → Plan α)

namespace Plan

variable {α β : Type}

/-- Two plans one after the other. -/
def bind : Plan α → (α → Plan β) → Plan β
  | done a, f => f a
  | ask most next, f => ask most fun i => (next i).bind f

instance : Monad Plan where
  pure := done
  bind := bind

/-- What a plan makes of the choices of a source. -/
def run {m : Type → Type} [Monad m] (source : (most : Nat) → m (Fin (most + 1))) : Plan α → m α
  | done a => return a
  | ask most next => do (next (← source most)).run source

end Plan

/-- A sample program, and its method with a body. -/
structure Sample where
  program : Program
  method : MethodId
  params : List VarId

namespace Sample

/-- A part of making a sample: it adds to the program so far. -/
abbrev Make (α : Type) := StateT Program Plan α

/-- A choice among the numbers from 0 to `most`. -/
def pick (most : Nat) : Make (Fin (most + 1)) := StateT.lift (.ask most .done)

/-- A number from 0 to `most`. -/
def upTo (most : Nat) : Make Nat := return (← pick most).val

/-- A member of a list, which has at least the member `first`. -/
def choose {α : Type} (first : α) (rest : List α) : Make α :=
  return (first :: rest).get (← pick rest.length)

/-- What `make` makes, or nothing. -/
def orNone {α : Type} (make : Make α) : Make (Option α) := do
  if (← upTo 1) = 1 then return some (← make) else return none

def addExpr (e : Expr) : Make ExprId := modifyGet fun p => (p.exprs.next, p.addExpr e)

def addStmt (stmt : Stmt) : Make StmtId := modifyGet fun p => (p.stmts.next, p.addStmt stmt)

/-- How deep a sample nests. -/
def depth : Nat := 3

/-- How many statements a block of a sample has at most. -/
def blockLength : Nat := 5

/-- The method that is pure. -/
def mix : MethodId := ⟨0⟩

/-- The method with side effects. -/
def tick : MethodId := ⟨1⟩

/-- The method with a body. -/
def entry : MethodId := ⟨2⟩

/-- The parameters of the method with a body. -/
def parameters : List VarId := [⟨0⟩, ⟨1⟩]

/-- A variable. -/
def var : Make VarId := choose ⟨0⟩ [⟨1⟩, ⟨2⟩, ⟨3⟩, ⟨4⟩]

/-- A variable, as an expression. -/
def varExpr : Make ExprId := do addExpr (.var (← var))

/-- A number from -4 to 4, or a variable. -/
def leaf (choice : Nat) : Make ExprId := do
  if choice = 0 then addExpr (.int (Int64.ofNat (← upTo 8) - 4)) else varExpr

/-- An expression that nests at most `level` deep. -/
def expr : (level : Nat) → Make ExprId
  | 0 => do leaf (← upTo 1)
  | level + 1 => do
    match ← upTo 5 with
    | 0 => leaf 0
    | 1 => leaf 1
    | 2 | 3 =>
      let op ← choose BinaryOp.add [.sub, .mul, .lt]
      let lhs ← expr level
      let rhs ← expr level
      addExpr (.binary op lhs rhs)
    | 4 =>
      let arg ← expr level
      addExpr (.call mix none [arg])
    | _ => addExpr (.call tick none [])

/-- So many statements made by `stmt`. -/
def rowOf (stmt : Make StmtId) : (count : Nat) → Make (List StmtId)
  | 0 => return []
  | count + 1 => return (← stmt) :: (← rowOf stmt count)

/-- A block of statements made by `stmt`. -/
def blockOf (stmt : Make StmtId) : Make StmtId := do
  let stmts ← rowOf stmt (← upTo blockLength)
  addStmt (.block stmts)

/-- A statement without others inside it. -/
def simpleStmt (level choice : Nat) : Make StmtId := do
  match choice with
  | 0 =>
    let v ← var
    let value ← expr level
    addStmt (.declare v (some value))
  | 1 =>
    let target ← varExpr
    let value ← expr level
    addStmt (.expr (← addExpr (.assign target value)))
  | _ =>
    let target ← varExpr
    addStmt (.expr (← addExpr (.increment .postInc target)))

/-- A statement that nests at most `level` deep. -/
def stmt : (level : Nat) → Make StmtId
  | 0 => do simpleStmt 0 (← upTo 2)
  | level + 1 => do
    match ← upTo 4 with
    | 3 =>
      let condition ← expr (level + 1)
      let thenStmt ← blockOf (stmt level)
      let elseStmt ← orNone (blockOf (stmt level))
      addStmt (.branch condition thenStmt elseStmt)
    | 4 =>
      let condition ← expr (level + 1)
      let body ← blockOf (stmt level)
      addStmt (.loop condition body)
    | choice => simpleStmt (level + 1) choice

/-- The program before the body is made. -/
def base : Program where
  vars := ⟨#[⟨"p0", .int, .parameter⟩, ⟨"p1", .int, .parameter⟩,
    ⟨"a", .int, .ofMethod⟩, ⟨"b", .int, .ofMethod⟩, ⟨"c", .int, .ofMethod⟩]⟩
  methods := ⟨#[⟨"mix", .int, [], true, none⟩, ⟨"tick", .int, [], false, none⟩,
    ⟨"run", .int, parameters, false, none⟩]⟩

/-- The program with a statement at the end of a block. -/
def extendBlock (p : Program) (block last : StmtId) : Program :=
  { p with stmts := p.stmts.modify block fun
      | .block stmts => .block (stmts ++ [last])
      | other => other }

/-- A body: a block, with a return of a variable at its end. -/
def body : Make StmtId := do
  let block ← blockOf (stmt depth)
  let value ← varExpr
  let last ← addStmt (.ret (some value))
  modify fun p => extendBlock p block last
  return block

/-- A sample whose method with a body has this one. -/
def ofBody (block : StmtId) (p : Program) : Sample where
  program := { p with methods := p.methods.modify entry fun m => { m with body := some block } }
  method := entry
  params := parameters

/-- The sample programs, and the choices that make them. -/
def planned : Plan Sample := do
  let (block, p) ← body.run base
  return ofBody block p

/-- The choice of the next byte. -/
def nextByte (most : Nat) : StateM (List UInt8) (Fin (most + 1)) := modifyGet fun
  | [] => (0, [])
  | b :: rest => (Fin.ofNat (most + 1) b.toNat, rest)

/-- The sample program of a row of bytes. -/
def ofBytes (bytes : List UInt8) : Sample := ((planned.run nextByte).run bytes).1

end Sample

end Dataflow
