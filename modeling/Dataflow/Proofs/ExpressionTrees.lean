import Dataflow.Proofs.Acyclic
import Dataflow.Proofs.Lexemes

/-!
# Expressions as trees

What an expression is, without the handles by which it refers to its operands, is a tree: two
expressions that have the same tree differ in where they are kept and in nothing else. The text of
an expression is that of its tree.

* `ExprTree`, `Program.tree`: trees, and the tree of an expression;
* `ExprTree.parts`: the operands of a tree, each with how tightly it has to bind in order to be
  written without parentheses;
* `ExprTree.Throughout`: what holds at every node of a tree;
* `ExprTree.lexemes`: how a tree is written;
* `Program.exists_tree_of_showExpr`: the text of an expression is that of its tree.
-/

namespace Dataflow

/-- An expression, with its operands. -/
inductive ExprTree where
  | int (value : Int64)
  | bool (value : Bool)
  | null
  | var (v : VarId)
  | field (object : ExprTree) (v : VarId)
  | unary (op : UnaryOp) (operand : ExprTree)
  | binary (op : BinaryOp) (lhs rhs : ExprTree)
  | assign (target value : ExprTree)
  | compound (op : BinaryOp) (target value : ExprTree)
  | increment (op : IncrementOp) (target : ExprTree)
  | call (method : MethodId) (args : List ExprTree)
  | callOn (receiver : ExprTree) (method : MethodId) (args : List ExprTree)
  | newObject (className : String)
  | newArray (element : Ty) (length : ExprTree)

theorem BinaryOp.five_le_precedence (op : BinaryOp) : 5 ≤ op.precedence := by
  cases op <;> decide

theorem BinaryOp.precedence_le_twelve (op : BinaryOp) : op.precedence ≤ 12 := by
  cases op <;> decide

/-- Whether an increment is written in front of its operand. -/
def IncrementOp.leads : IncrementOp → Bool
  | preInc | preDec => true
  | postInc | postDec => false

/-- How tightly an increment binds. -/
def IncrementOp.precedence (op : IncrementOp) : Nat :=
  if op.leads then Precedence.leading else Precedence.trailing

namespace ExprTree

/-- How tightly the outermost operator of a tree binds. -/
def precedence : ExprTree → Nat
  | assign .. | compound .. => Precedence.assignment
  | binary op .. => op.precedence
  | unary .. => Precedence.leading
  | increment op _ => op.precedence
  | _ => Precedence.primary

/-- Whether a tree can be assigned to. -/
def isPlace : ExprTree → Bool
  | var _ | field .. => true
  | _ => false

/-- The operands of a tree, each with how tightly it has to bind in order to be written without
    parentheses. -/
def parts : ExprTree → List (Nat × ExprTree)
  | int _ | bool _ | null | var _ | newObject _ => []
  | field object _ => [(Precedence.trailing, object)]
  | unary _ operand => [(Precedence.leading, operand)]
  | binary op lhs rhs => [(op.precedence, lhs), (op.precedence + 1, rhs)]
  | assign target value | compound _ target value =>
    [(Precedence.assignment + 1, target), (Precedence.assignment, value)]
  | increment op target => [(op.precedence, target)]
  | call _ args => args.map (Precedence.assignment, ·)
  | callOn receiver _ args =>
    (Precedence.trailing, receiver) :: args.map (Precedence.assignment, ·)
  | newArray _ length => [(Precedence.assignment, length)]

theorem sizeOf_lt_of_mem_parts {t : ExprTree} {q : Nat × ExprTree} (h : q ∈ t.parts) :
    sizeOf q.2 < sizeOf t := by
  cases t <;> simp only [parts, List.mem_cons, List.not_mem_nil, or_false, List.mem_map] at h
  case call method args =>
    obtain ⟨a, ha, rfl⟩ := h
    have hlt := List.sizeOf_lt_of_mem ha
    simp only [call.sizeOf_spec]
    omega
  case callOn receiver method args =>
    obtain rfl | ⟨a, ha, rfl⟩ := h
    · simp only [callOn.sizeOf_spec]
      omega
    · have hlt := List.sizeOf_lt_of_mem ha
      simp only [callOn.sizeOf_spec]
      omega
  case binary | assign | compound => rcases h with rfl | rfl <;> simp +arith
  case field | unary | increment | newArray => subst h; simp +arith

/-- Induction from the operands of a tree to the tree. -/
theorem induct {motive : ExprTree → Prop} (step : ∀ t, (∀ q ∈ t.parts, motive q.2) → motive t)
    (t : ExprTree) : motive t :=
  (measure (sizeOf : ExprTree → Nat)).wf.induction t fun t ih =>
    step t fun q hq => ih q.2 (sizeOf_lt_of_mem_parts hq)

/-- A property of nodes that holds throughout a tree; it is told how tightly each node has to bind
    in order to be written without parentheses. -/
inductive Throughout (P : Nat → ExprTree → Prop) : Nat → ExprTree → Prop
  | intro {least : Nat} {t : ExprTree} (here : P least t)
    (below : ∀ q ∈ t.parts, Throughout P q.1 q.2) : Throughout P least t

namespace Throughout

variable {P Q : Nat → ExprTree → Prop} {least : Nat} {t : ExprTree}

theorem here (h : Throughout P least t) : P least t := by
  cases h
  assumption

theorem part (h : Throughout P least t) {q : Nat × ExprTree} (hq : q ∈ t.parts) :
    Throughout P q.1 q.2 := by
  cases h with
  | intro _ hbelow => exact hbelow q hq

/-- Only the root of a tree is told about its surroundings. -/
theorem of_here (h : Throughout P least t) {least' : Nat} (here : P least' t) :
    Throughout P least' t :=
  .intro here fun _ hq => h.part hq

theorem mono (h : Throughout P least t) (himp : ∀ least t, P least t → Q least t) :
    Throughout Q least t := by
  induction h with
  | intro here _ ih => exact .intro (himp _ _ here) ih

end Throughout

end ExprTree

/-! ### The tree of an expression -/

namespace Program

/-- One level of `tree`: the tree of an expression from those of its operands. -/
def treeStep (p : Program) (self : ExprId → Run ExprTree) (e : ExprId) : Run ExprTree := do
  match ← p.exprs.get e with
  | .int value => return .int value
  | .bool value => return .bool value
  | .null => return .null
  | .var v => return .var v
  | .field object v => return .field (← self object) v
  | .unary op operand => return .unary op (← self operand)
  | .binary op lhs rhs => return .binary op (← self lhs) (← self rhs)
  | .assign target value => return .assign (← self target) (← self value)
  | .compound op target value => return .compound op (← self target) (← self value)
  | .increment op target => return .increment op (← self target)
  | .call method none args => return .call method (← args.mapM self)
  | .call method (some receiver) args =>
    return .callOn (← self receiver) method (← args.mapM self)
  | .newObject className => return .newObject className
  | .newArray element length => return .newArray element (← self length)

/-- The tree of an expression. -/
def tree (p : Program) (e : ExprId) : Run ExprTree :=
  unroll (throw .endless) p.treeStep p.exprDepth e

/-- The characters of the name of a variable, if there is one. -/
def varText (p : Program) (v : VarId) : List Char :=
  (p.vars.get? v).elim [] fun decl => decl.name.toList

/-- The characters of the name of a method, if there is one. -/
def methodText (p : Program) (m : MethodId) : List Char :=
  (p.methods.get? m).elim [] fun decl => decl.name.toList

end Program

/-! ### How trees are written -/

/-- How a type is written. -/
def Ty.lexemes : Ty → List Lexeme
  | int => [.word ['i', 'n', 't']]
  | boolean => [.word ['b', 'o', 'o', 'l', 'e', 'a', 'n']]
  | void => [.word ['v', 'o', 'i', 'd']]
  | object className => [.word className.toList]
  | array element => element.lexemes ++ [.group true []]

def UnaryOp.sign : UnaryOp → Char
  | neg => '-'
  | not => '!'

/-- What an increment writes twice. -/
def IncrementOp.sign : IncrementOp → Char
  | preInc | postInc => '+'
  | preDec | postDec => '-'

/-- Lexemes, in parentheses if they bind too loosely. -/
def enclose (loose : Prop) [Decidable loose] (xs : List Lexeme) : List Lexeme :=
  if loose then [.group false [textOf xs]] else xs

namespace ExprTree

mutual

/-- How a tree is written. -/
def lexemes (p : Program) : ExprTree → List Lexeme
  | int value => [.word (toString value.toInt).toList]
  | bool true => [.word ['t', 'r', 'u', 'e']]
  | bool false => [.word ['f', 'a', 'l', 's', 'e']]
  | null => [.word ['n', 'u', 'l', 'l']]
  | var v => [.word (p.varText v)]
  | field object v =>
    enclose (object.precedence < Precedence.trailing) (object.lexemes p) ++
      [.mark '.', .word (p.varText v)]
  | unary op operand =>
    .mark op.sign :: enclose (operand.precedence < Precedence.leading) (operand.lexemes p)
  | binary op lhs rhs =>
    enclose (lhs.precedence < op.precedence) (lhs.lexemes p) ++ .between op.symbol.toList ::
      enclose (rhs.precedence < op.precedence + 1) (rhs.lexemes p)
  | assign target value =>
    enclose (target.precedence < Precedence.assignment + 1) (target.lexemes p) ++ .between ['='] ::
      enclose (value.precedence < Precedence.assignment) (value.lexemes p)
  | compound op target value =>
    enclose (target.precedence < Precedence.assignment + 1) (target.lexemes p) ++
      .between (op.symbol.toList ++ ['=']) ::
        enclose (value.precedence < Precedence.assignment) (value.lexemes p)
  | increment op target =>
    if op.leads then
      .mark op.sign :: .mark op.sign ::
        enclose (target.precedence < op.precedence) (target.lexemes p)
    else
      enclose (target.precedence < op.precedence) (target.lexemes p) ++
        [.mark op.sign, .mark op.sign]
  | call method args => [.word (p.methodText method), .group false (texts p args)]
  | callOn receiver method args =>
    enclose (receiver.precedence < Precedence.trailing) (receiver.lexemes p) ++
      [.mark '.', .word (p.methodText method), .group false (texts p args)]
  | newObject className => [.make, .word className.toList, .group false []]
  | newArray element length =>
    .make :: (element.lexemes ++ [.group true [textOf (length.lexemes p)]])

/-- The texts of trees. -/
def texts (p : Program) : List ExprTree → List (List Char)
  | [] => []
  | t :: ts => textOf (t.lexemes p) :: texts p ts

end

/-- The text of a tree. -/
def text (p : Program) (t : ExprTree) : List Char := textOf (t.lexemes p)

/-- How an operand is written that has to bind as tightly as `least`. -/
def operand (p : Program) (least : Nat) (t : ExprTree) : List Lexeme :=
  enclose (t.precedence < least) (t.lexemes p)

section Writing

variable (p : Program)

@[simp] theorem texts_eq_map (ts : List ExprTree) : texts p ts = ts.map (text p) := by
  induction ts with
  | nil => rw [texts, List.map_nil]
  | cons t ts ih => rw [texts, ih, List.map_cons, text]

theorem lexemes_field (object : ExprTree) (v : VarId) : (field object v).lexemes p =
    object.operand p Precedence.trailing ++ [.mark '.', .word (p.varText v)] := rfl

theorem lexemes_unary (op : UnaryOp) (t : ExprTree) : (unary op t).lexemes p =
    .mark op.sign :: t.operand p Precedence.leading := rfl

theorem lexemes_binary (op : BinaryOp) (lhs rhs : ExprTree) : (binary op lhs rhs).lexemes p =
    lhs.operand p op.precedence ++
      .between op.symbol.toList :: rhs.operand p (op.precedence + 1) := rfl

theorem lexemes_increment (op : IncrementOp) (t : ExprTree) : (increment op t).lexemes p =
    if op.leads then .mark op.sign :: .mark op.sign :: t.operand p op.precedence
    else t.operand p op.precedence ++ [.mark op.sign, .mark op.sign] := rfl

theorem lexemes_call (m : MethodId) (args : List ExprTree) : (call m args).lexemes p =
    [.word (p.methodText m), .group false (args.map (text p))] := by
  rw [lexemes, texts_eq_map]

theorem lexemes_callOn (receiver : ExprTree) (m : MethodId) (args : List ExprTree) :
    (callOn receiver m args).lexemes p = receiver.operand p Precedence.trailing ++
      [.mark '.', .word (p.methodText m), .group false (args.map (text p))] := by
  rw [lexemes, texts_eq_map, operand]

theorem lexemes_newArray (element : Ty) (length : ExprTree) : (newArray element length).lexemes p =
    .make :: (element.lexemes ++ [.group true [length.text p]]) := rfl

end Writing

theorem one_le_precedence (t : ExprTree) : Precedence.assignment ≤ t.precedence := by
  cases t with
  | binary op => exact Nat.le_trans (by decide) op.five_le_precedence
  | increment op => cases op <;> exact Nat.le_of_ble_eq_true rfl
  | _ => exact Nat.le_of_ble_eq_true rfl

theorem operand_of_le {p : Program} {least : Nat} {t : ExprTree} (h : least ≤ t.precedence) :
    t.operand p least = t.lexemes p :=
  if_neg (Nat.not_lt.2 h)

theorem operand_of_lt {p : Program} {least : Nat} {t : ExprTree} (h : t.precedence < least) :
    t.operand p least = [.group false [t.text p]] :=
  if_pos h

/-- Nothing binds too loosely to be assigned, passed on or taken as a length. -/
@[simp] theorem operand_assignment (p : Program) (t : ExprTree) :
    t.operand p Precedence.assignment = t.lexemes p :=
  operand_of_le t.one_le_precedence

theorem lexemes_assign (p : Program) (target value : ExprTree) :
    (assign target value).lexemes p =
      target.operand p (Precedence.assignment + 1) ++ .between ['='] :: value.lexemes p := by
  rw [← operand_assignment p value]
  rfl

theorem lexemes_compound (p : Program) (op : BinaryOp) (target value : ExprTree) :
    (compound op target value).lexemes p = target.operand p (Precedence.assignment + 1) ++
      .between (op.symbol.toList ++ ['=']) :: value.lexemes p := by
  rw [← operand_assignment p value]
  rfl

end ExprTree

/-! ### Names -/

/-- The words that are not names. -/
def reservedWords : List (List Char) :=
  ["true", "false", "null", "new", "int", "boolean", "void"].map String.toList

/-- A name: a word that does not begin with a digit and has no other meaning. -/
def IsName (s : String) : Prop :=
  s.toList ≠ [] ∧ Avoids s.toList marks ∧ s.toList.head?.any Char.isDigit = false ∧
    s.toList ∉ reservedWords

instance (s : String) : Decidable (IsName s) :=
  inferInstanceAs (Decidable (_ ∧ Avoids s.toList marks ∧ _))

/-- A type in which all classes have names. -/
def Ty.Named : Ty → Prop
  | object className => IsName className
  | array element => element.Named
  | _ => True

/-- An expression that is a number without a sign, makes objects and arrays of classes that have
    names, or is of another kind. -/
def Expr.Spelled : Expr → Prop
  | int value => 0 ≤ value.toInt
  | newObject className => IsName className
  | newArray element _ => element.Named
  | _ => True

namespace Program

/-- The names of variables differ from each other, and so do those of methods. -/
structure NamesApart (p : Program) : Prop where
  isName_var : ∀ x ∈ p.vars.values, IsName x.name
  isName_method : ∀ m ∈ p.methods.values, IsName m.name
  nodup_vars : (p.vars.values.map Variable.name).Nodup
  nodup_methods : (p.methods.values.map Method.name).Nodup

/-- An expression in which numbers have no sign, classes have names, and assignments are to
    variables and fields. -/
structure Spelled (p : Program) (a : ExprId) : Prop where
  places : p.AssignsPlaces (.expr a)
  all : ∀ e x, p.Inside (.expr a) (.expr e) → p.exprs.get? e = some x → x.Spelled

theorem Spelled.operand {p : Program} {a o : ExprId} {x : Expr} (h : p.Spelled a)
    (hx : p.exprs.get? a = some x) (ho : o ∈ x.operands) : p.Spelled o := by
  have hin : ∀ {y}, p.Inside (.expr o) y → p.Inside (.expr a) y :=
    fun hy => (Inside.operand .refl hx ho).trans hy
  exact ⟨fun e y he => h.places e y (hin he), fun e y he => h.all e y (hin he)⟩

end Program

/-- A node of a tree in which everything is what its text says. -/
def ExprTree.Regular (p : Program) : ExprTree → Prop
  | int value => 0 ≤ value.toInt
  | var v | field _ v => ∃ x, p.vars.get? v = some x
  | assign target _ | compound _ target _ | increment _ target => target.isPlace = true
  | call m _ | callOn _ m _ => ∃ x, p.methods.get? m = some x
  | newObject className => IsName className
  | newArray element _ => element.Named
  | bool _ | null | unary .. | binary .. => True

/-! ### The text of an expression -/

theorem Ty.toList_show (ty : Ty) : ty.show.toList = textOf ty.lexemes := by
  induction ty with
  | int | boolean | void => rfl
  | object className => simp [Ty.show, Ty.lexemes, textOf, Lexeme.text]
  | array element ih =>
    rw [Ty.show, String.toList_append, ih, Ty.lexemes, textOf_append]
    rfl

namespace Program

variable {p : Program} {self : ExprId → Run String} {selfTree : ExprId → Run ExprTree}

/-- The text `s` of the expression `e` is that of the tree `t`, which has the same operator. -/
structure Prints (p : Program) (e : ExprId) (s : String) (t : ExprTree) : Prop where
  precedence_eq : ∀ x, p.exprs.get? e = some x → x.precedence = t.precedence
  isPlace : p.IsPlace e → t.isPlace = true
  toList_eq : s.toList = t.text p
  regular : t.Throughout (fun _ => ExprTree.Regular p) Precedence.assignment

/-- The texts that `self` gives are those of the trees that `selfTree` gives. -/
def PrintsTrees (p : Program) (self : ExprId → Run String) (selfTree : ExprId → Run ExprTree) :
    Prop :=
  ∀ e s, p.Spelled e → self e = .ok s → ∃ t, selfTree e = .ok t ∧ p.Prints e s t

theorem PrintsTrees.operand (hself : p.PrintsTrees self selfTree) {e : ExprId} {least : Nat}
    {s : String} (hspelled : p.Spelled e) (h : p.showOperand self least e = .ok s) :
    ∃ t, selfTree e = .ok t ∧ s.toList = textOf (t.operand p least) ∧
      (p.IsPlace e → t.isPlace = true) ∧ ∀ k, t.Throughout (fun _ => ExprTree.Regular p) k := by
  obtain ⟨x, hx, h⟩ := Run.bind_eq_ok.1 h
  obtain ⟨s', hs', h⟩ := Run.bind_eq_ok.1 h
  obtain rfl := Except.ok.inj h
  obtain ⟨t, ht, hprints⟩ := hself e s' hspelled hs'
  refine ⟨t, ht, ?_, hprints.isPlace, fun k => hprints.regular.of_here hprints.regular.here⟩
  rw [hprints.precedence_eq x (Arena.get_eq_ok_iff.1 hx)]
  by_cases hloose : t.precedence < least
  · rw [if_pos hloose, ExprTree.operand_of_lt hloose, String.toList_append, String.toList_append,
      hprints.toList_eq]
    simp [textOf, Lexeme.text, Lexeme.opener, Lexeme.closer]
  · rw [if_neg hloose, ExprTree.operand_of_le (Nat.not_lt.1 hloose), hprints.toList_eq]
    rfl

theorem PrintsTrees.operands (hself : p.PrintsTrees self selfTree) {args : List ExprId}
    {ss : List String} (hspelled : ∀ e ∈ args, p.Spelled e)
    (h : args.mapM (p.showOperand self Precedence.assignment) = .ok ss) :
    ∃ ts, args.mapM selfTree = .ok ts ∧ ss.map String.toList = ts.map (ExprTree.text p) ∧
      ∀ t ∈ ts, ∀ k, t.Throughout (fun _ => ExprTree.Regular p) k := by
  rw [Run.mapM_eq_ok] at h
  simp only [Run.mapM_eq_ok]
  induction h with
  | nil => exact ⟨[], .nil, rfl, fun t ht => absurd ht List.not_mem_nil⟩
  | @cons e s args ss he _ ih =>
    obtain ⟨hspell, hspells⟩ := List.forall_mem_cons.1 hspelled
    obtain ⟨t, ht, htext, _, hregular⟩ := hself.operand hspell he
    obtain ⟨ts, hts, htexts, hregulars⟩ := ih hspells
    refine ⟨t :: ts, .cons ht hts, ?_, List.forall_mem_cons.2 ⟨hregular, hregulars⟩⟩
    rw [List.map_cons, List.map_cons, htexts, htext, ExprTree.operand_assignment]
    rfl

theorem exists_varName {v : VarId} {s : String} (h : p.varName v = .ok s) :
    (∃ x, p.vars.get? v = some x) ∧ s.toList = p.varText v := by
  obtain ⟨x, hx, h⟩ := Run.bind_eq_ok.1 h
  obtain rfl := Except.ok.inj h
  rw [Arena.get_eq_ok_iff] at hx
  exact ⟨⟨x, hx⟩, by rw [varText, hx]; rfl⟩

/-- What the text of a call says after the receiver. -/
theorem PrintsTrees.exists_call (hself : p.PrintsTrees self selfTree) {method : MethodId}
    {args : List ExprId} {before s : String} (hspelled : ∀ e ∈ args, p.Spelled e)
    (h : (do
      let decl ← p.methods.get method
      let texts ← args.mapM (p.showOperand self Precedence.assignment)
      return before ++ decl.name ++ "(" ++ ", ".intercalate texts ++ ")") = .ok s) :
    (∃ decl, p.methods.get? method = some decl) ∧ ∃ ts, args.mapM selfTree = .ok ts ∧
      s.toList = before.toList ++
        textOf [.word (p.methodText method), .group false (ts.map (ExprTree.text p))] ∧
      ∀ t ∈ ts, ∀ k, t.Throughout (fun _ => ExprTree.Regular p) k := by
  obtain ⟨decl, hdecl, h⟩ := Run.bind_eq_ok.1 h
  obtain ⟨texts, htexts, h⟩ := Run.bind_eq_ok.1 h
  obtain rfl := Except.ok.inj h
  obtain ⟨ts, hts, htext, hregulars⟩ := hself.operands hspelled htexts
  rw [Arena.get_eq_ok_iff] at hdecl
  refine ⟨⟨decl, hdecl⟩, ts, hts, ?_, hregulars⟩
  simp [Lexeme.text, Lexeme.opener, Lexeme.closer, methodText, hdecl, htext]

theorem Prints.of_node {e : ExprId} {s : String} {x : Expr} {t : ExprTree}
    (hx : p.exprs.get? e = some x) (hprec : x.precedence = t.precedence)
    (hplace : x.namedVar.isSome = t.isPlace) (htext : s.toList = t.text p) (hhere : t.Regular p)
    (hbelow : ∀ q ∈ t.parts, ∀ k, q.2.Throughout (fun _ => ExprTree.Regular p) k) :
    p.Prints e s t where
  precedence_eq y hy := by
    cases hx.symm.trans hy
    exact hprec
  isPlace h := by
    rw [← hplace, Option.isSome_iff_ne_none]
    exact h.namedVar_ne_none hx
  toList_eq := htext
  regular := .intro hhere fun q hq => hbelow q hq q.1

/-- The text of an expression is that of its tree, if it is so for the operands. -/
theorem PrintsTrees.step (hself : p.PrintsTrees self selfTree) :
    p.PrintsTrees (p.showExprStep self) (p.treeStep selfTree) := by
  intro e s hspelled h
  obtain ⟨x, hget, h⟩ := Run.bind_eq_ok.1 h
  have hx := Arena.get_eq_ok_iff.1 hget
  have hoperand : ∀ {o least s}, o ∈ x.operands → p.showOperand self least o = .ok s → ∃ t,
      selfTree o = .ok t ∧ s.toList = textOf (t.operand p least) ∧
        (p.IsPlace o → t.isPlace = true) ∧ ∀ k, t.Throughout (fun _ => ExprTree.Regular p) k :=
    fun ho => hself.operand (hspelled.operand hx ho)
  simp only [treeStep, hget, Run.bind_eq_ok, Except.ok.injEq, exists_eq_left']
  cases x with
  | int value =>
    obtain rfl := Except.ok.inj h
    refine ⟨.int value, rfl, .of_node hx rfl rfl ?_ (hspelled.all e _ .refl hx) ?_⟩
    · simp [ExprTree.text, ExprTree.lexemes, Lexeme.text]
    · simp [ExprTree.parts]
  | bool value =>
    obtain rfl := Except.ok.inj h
    refine ⟨.bool value, rfl, .of_node hx rfl rfl ?_ trivial (by simp [ExprTree.parts])⟩
    cases value <;> rfl
  | null =>
    obtain rfl := Except.ok.inj h
    exact ⟨.null, rfl, .of_node hx rfl rfl rfl trivial (by simp [ExprTree.parts])⟩
  | var v =>
    obtain ⟨hv, hname⟩ := exists_varName h
    refine ⟨.var v, rfl, .of_node hx rfl rfl ?_ hv (by simp [ExprTree.parts])⟩
    simp [ExprTree.text, ExprTree.lexemes, Lexeme.text, hname]
  | field object v =>
    obtain ⟨a, ha, h⟩ := Run.bind_eq_ok.1 h
    obtain ⟨b, hb, h⟩ := Run.bind_eq_ok.1 h
    obtain rfl := Except.ok.inj h
    obtain ⟨t, ht, htext, _, hregular⟩ := hoperand (by simp [Expr.operands]) ha
    obtain ⟨hv, hname⟩ := exists_varName hb
    refine ⟨.field t v, ?_, .of_node hx rfl rfl ?_ hv ?_⟩
    · exact Run.bind_eq_ok.2 ⟨t, ht, rfl⟩
    · simp [ExprTree.text, ExprTree.lexemes_field, Lexeme.text, htext, hname]
    · simpa [ExprTree.parts] using hregular
  | unary op x =>
    obtain ⟨a, ha, h⟩ := Run.bind_eq_ok.1 h
    obtain rfl := Except.ok.inj h
    obtain ⟨t, ht, htext, _, hregular⟩ := hoperand (by simp [Expr.operands]) ha
    refine ⟨.unary op t, ?_, .of_node hx rfl rfl ?_ trivial ?_⟩
    · exact Run.bind_eq_ok.2 ⟨t, ht, rfl⟩
    · cases op <;> simp [ExprTree.text, ExprTree.lexemes_unary, Lexeme.text, htext,
        UnaryOp.symbol, UnaryOp.sign]
    · simpa [ExprTree.parts] using hregular
  | binary op lhs rhs =>
    obtain ⟨a, ha, h⟩ := Run.bind_eq_ok.1 h
    obtain ⟨b, hb, h⟩ := Run.bind_eq_ok.1 h
    obtain rfl := Except.ok.inj h
    obtain ⟨l, hl, hltext, _, hlregular⟩ := hoperand (by simp [Expr.operands]) ha
    obtain ⟨r, hr, hrtext, _, hrregular⟩ := hoperand (by simp [Expr.operands]) hb
    refine ⟨.binary op l r, ?_, .of_node hx rfl rfl ?_ trivial ?_⟩
    · exact Run.bind_eq_ok.2 ⟨l, hl, Run.bind_eq_ok.2 ⟨r, hr, rfl⟩⟩
    · simp [ExprTree.text, ExprTree.lexemes_binary, Lexeme.text, hltext, hrtext]
    · simpa [ExprTree.parts] using ⟨hlregular, hrregular⟩
  | assign target value =>
    obtain ⟨a, ha, h⟩ := Run.bind_eq_ok.1 h
    obtain ⟨b, hb, h⟩ := Run.bind_eq_ok.1 h
    obtain rfl := Except.ok.inj h
    obtain ⟨l, hl, hltext, hplace, hlregular⟩ := hoperand (by simp [Expr.operands]) ha
    obtain ⟨r, hr, hrtext, _, hrregular⟩ := hoperand (by simp [Expr.operands]) hb
    refine ⟨.assign l r, ?_, .of_node hx rfl rfl ?_ (hplace ?_) ?_⟩
    · exact Run.bind_eq_ok.2 ⟨l, hl, Run.bind_eq_ok.2 ⟨r, hr, rfl⟩⟩
    · simp [ExprTree.text, ExprTree.lexemes_assign, Lexeme.text, hltext, hrtext]
    · exact hspelled.places e _ .refl hx target (by simp [Expr.targets])
    · simpa [ExprTree.parts] using ⟨hlregular, hrregular⟩
  | compound op target value =>
    obtain ⟨a, ha, h⟩ := Run.bind_eq_ok.1 h
    obtain ⟨b, hb, h⟩ := Run.bind_eq_ok.1 h
    obtain rfl := Except.ok.inj h
    obtain ⟨l, hl, hltext, hplace, hlregular⟩ := hoperand (by simp [Expr.operands]) ha
    obtain ⟨r, hr, hrtext, _, hrregular⟩ := hoperand (by simp [Expr.operands]) hb
    refine ⟨.compound op l r, ?_, .of_node hx rfl rfl ?_ (hplace ?_) ?_⟩
    · exact Run.bind_eq_ok.2 ⟨l, hl, Run.bind_eq_ok.2 ⟨r, hr, rfl⟩⟩
    · simp [ExprTree.text, ExprTree.lexemes_compound, Lexeme.text, hltext, hrtext]
    · exact hspelled.places e _ .refl hx target (by simp [Expr.targets])
    · simpa [ExprTree.parts] using ⟨hlregular, hrregular⟩
  | increment op target =>
    have h : ∃ a, p.showOperand self op.precedence target = .ok a ∧ s.toList =
        if op.leads then op.sign :: op.sign :: a.toList else a.toList ++ [op.sign, op.sign] := by
      cases op <;>
      · obtain ⟨a, ha, h⟩ := Run.bind_eq_ok.1 h
        obtain rfl := Except.ok.inj h
        exact ⟨a, ha, by simp [IncrementOp.leads, IncrementOp.sign]⟩
    obtain ⟨a, ha, hs⟩ := h
    obtain ⟨t, ht, htext, hplace, hregular⟩ := hoperand (by simp [Expr.operands]) ha
    refine ⟨.increment op t, ?_, .of_node hx ?_ rfl ?_ (hplace ?_) ?_⟩
    · exact Run.bind_eq_ok.2 ⟨t, ht, rfl⟩
    · cases op <;> rfl
    · rw [hs, ExprTree.text, ExprTree.lexemes_increment]
      cases op.leads <;> simp [Lexeme.text, htext]
    · exact hspelled.places e _ .refl hx target (by simp [Expr.targets])
    · simpa [ExprTree.parts] using hregular
  | call method receiver args =>
    have hargs : ∀ o ∈ args, p.Spelled o :=
      fun o ho => hspelled.operand hx (by simp [Expr.operands, ho])
    cases receiver with
    | none =>
      obtain ⟨hmethod, ts, hts, hs, hregulars⟩ := hself.exists_call hargs h
      refine ⟨.call method ts, ?_, .of_node hx rfl rfl ?_ hmethod ?_⟩
      · exact Run.bind_eq_ok.2 ⟨ts, hts, rfl⟩
      · rw [hs, ExprTree.text, ExprTree.lexemes_call]
        rfl
      · simpa [ExprTree.parts] using hregulars
    | some object =>
      obtain ⟨a, ha, h⟩ := Run.bind_eq_ok.1 h
      obtain ⟨t, ht, htext, _, hregular⟩ := hoperand (by simp [Expr.operands]) ha
      obtain ⟨hmethod, ts, hts, hs, hregulars⟩ := hself.exists_call hargs h
      refine ⟨.callOn t method ts, ?_, .of_node hx rfl rfl ?_ hmethod ?_⟩
      · exact Run.bind_eq_ok.2 ⟨t, ht, Run.bind_eq_ok.2 ⟨ts, hts, rfl⟩⟩
      · simp [hs, ExprTree.text, ExprTree.lexemes_callOn, Lexeme.text, htext]
      · simpa [ExprTree.parts] using ⟨hregular, hregulars⟩
  | newObject className =>
    obtain rfl := Except.ok.inj h
    refine ⟨.newObject className, rfl, .of_node hx rfl rfl ?_ ?_ (by simp [ExprTree.parts])⟩
    · simp [ExprTree.text, ExprTree.lexemes, Lexeme.text, Lexeme.opener, Lexeme.closer]
    · exact hspelled.all e _ .refl hx
  | newArray element length =>
    obtain ⟨a, ha, h⟩ := Run.bind_eq_ok.1 h
    obtain rfl := Except.ok.inj h
    obtain ⟨t, ht, hprints⟩ := hself length a (hspelled.operand hx (by simp [Expr.operands])) ha
    refine ⟨.newArray element t, ?_, .of_node hx rfl rfl ?_ ?_ ?_⟩
    · exact Run.bind_eq_ok.2 ⟨t, ht, rfl⟩
    · simp [ExprTree.text, ExprTree.lexemes, Lexeme.text, Lexeme.opener, Lexeme.closer,
        Ty.toList_show, hprints.toList_eq]
    · exact hspelled.all e _ .refl hx
    · simpa [ExprTree.parts] using fun k => hprints.regular.of_here hprints.regular.here

/-- An expression that has a text has a tree, and its text is that of the tree. -/
theorem exists_tree_of_showExpr {e : ExprId} {s : String} (hspelled : p.Spelled e)
    (h : p.showExpr e = .ok s) : ∃ t, p.tree e = .ok t ∧ p.Prints e s t := by
  have hall : ∀ depth, p.PrintsTrees (unroll (throw .endless) p.showExprStep depth)
      (unroll (throw .endless) p.treeStep depth) := by
    intro depth
    induction depth with
    | zero => exact fun _ _ _ h => by cases h
    | succ depth ih => exact ih.step
  exact hall p.exprDepth e s hspelled h

end Program

end Dataflow
