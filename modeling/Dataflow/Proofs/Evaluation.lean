import Dataflow.Eval
import Dataflow.Proofs.Operations

/-!
# Evaluation as a relation

What a finished run of the evaluator did, as a derivation: which expressions were evaluated in
which states, and which events an observer of variables, calls and jumps would note on the way.
Fuel does not appear in it. An expression first evaluates some of its operands, in order, and
then does something of its own (`Program.act`), so evaluation is one relation on lists of
expressions; statements, rows of statements and loops are the tasks of another.

* `Computes`, `Runs`: expressions and statements, with their events;
* `exists_computes`, `exists_runs`: every run that finishes has a derivation;
* `Computes.exists_cost`, `Runs.exists_cost`: every derivation is a run, for all fuel from some
  amount on;
* `Computes.unique`, `Runs.unique`: there is one derivation at most.
-/

namespace Dataflow

/-! ### Parts of runs that give a value -/

namespace Eval

/-- A part of a run gives a value and leaves the machine in a state. -/
def Gives {α : Type} (x : Eval α) (m : Machine) (a : α) (m' : Machine) : Prop :=
  x.run.run m = .ok (.ok a, m')

variable {α β : Type} {m m' : Machine}

theorem gives_bind {x : Eval α} {f : α → Eval β} {b : β} :
    (x >>= f).Gives m b m' ↔ ∃ a mid, x.Gives m a mid ∧ (f a).Gives mid b m' := by
  constructor
  · intro h
    change ((x.run.run m) >>= fun r => ExceptT.bindCont f r.1 r.2) = _ at h
    obtain ⟨⟨r, mid⟩, hx, h⟩ := Run.bind_eq_ok.1 h
    cases r with
    | error halt => cases h
    | ok a => exact ⟨a, mid, hx, h⟩
  · rintro ⟨a, mid, hx, h⟩
    exact Run.bind_eq_ok.2 ⟨(.ok a, mid), hx, h⟩

theorem gives_pure {a b : α} : (pure a : Eval α).Gives m b m' ↔ b = a ∧ m' = m := by
  constructor
  · intro h
    cases h
    exact ⟨rfl, rfl⟩
  · rintro ⟨rfl, rfl⟩
    rfl

theorem not_gives_throw {halt : Halt} {a : α} : ¬(throw halt : Eval α).Gives m a m' := by
  intro h
  cases h

/-- A look-up gives a value if there is such a slot. -/
theorem gives_lookup {name : String} {a : Arena name α} {h : Handle name} {x : α} :
    (liftM (a.get h) : Eval α).Gives m x m' ↔ a.get? h = some x ∧ m' = m := by
  rw [← Arena.get_eq_ok_iff]
  cases a.get h with
  | error fault =>
    constructor
    · intro h
      cases h
    · rintro ⟨h, _⟩
      cases h
  | ok y =>
    constructor
    · intro h
      cases h
      exact ⟨rfl, rfl⟩
    · rintro ⟨h, rfl⟩
      cases h
      rfl

theorem gives_mapM_nil {self : α → Eval β} {bs : List β} :
    (([] : List α).mapM self).Gives m bs m' ↔ bs = [] ∧ m' = m := by
  rw [List.mapM_nil]
  exact gives_pure

theorem gives_mapM_cons {self : α → Eval β} {a : α} {as : List α} {bs : List β} :
    ((a :: as).mapM self).Gives m bs m' ↔ ∃ b mid rest, (self a).Gives m b mid ∧
      (as.mapM self).Gives mid rest m' ∧ bs = b :: rest := by
  rw [List.mapM_cons]
  constructor
  · intro h
    obtain ⟨b, mid, hb, h⟩ := gives_bind.1 h
    obtain ⟨rest, _, hrest, h⟩ := gives_bind.1 h
    obtain ⟨rfl, rfl⟩ := gives_pure.1 h
    exact ⟨b, mid, rest, hb, hrest, rfl⟩
  · rintro ⟨b, mid, rest, hb, hrest, rfl⟩
    exact gives_bind.2 ⟨b, mid, hb, gives_bind.2 ⟨rest, m', hrest, gives_pure.2 ⟨rfl, rfl⟩⟩⟩

theorem gives_mapM_one {self : α → Eval β} {a : α} {bs : List β} :
    ([a].mapM self).Gives m bs m' ↔ ∃ b, (self a).Gives m b m' ∧ bs = [b] := by
  rw [gives_mapM_cons]
  constructor
  · rintro ⟨b, mid, rest, hb, hrest, rfl⟩
    obtain ⟨rfl, rfl⟩ := gives_mapM_nil.1 hrest
    exact ⟨b, hb, rfl⟩
  · rintro ⟨b, hb, rfl⟩
    exact ⟨b, m', [], hb, gives_mapM_nil.2 ⟨rfl, rfl⟩, rfl⟩

end Eval

/-! ### States and events -/

/-- What a run works on: a machine without its fuel. -/
structure Memory where
  env : HandleMap "var" Int64 := {}
  /-- The calls recorded, each with the sum of its arguments. -/
  effects : Array Int64 := #[]

namespace Memory

/-- The value of a variable. -/
def read (s : Memory) (v : VarId) : Int64 := (s.env.find? v).getD 0

/-- The state after a variable is written. -/
def write (s : Memory) (v : VarId) (a : Int64) : Memory := { s with env := s.env.insert v a }

/-- The state after a call with side effects. -/
def record (s : Memory) (sum : Int64) : Memory := { s with effects := s.effects.push sum }

/-- A machine in this state. -/
def withFuel (s : Memory) (fuel : Nat) : Machine := { env := s.env, effects := s.effects, fuel }

end Memory

/-- The state of a machine. -/
def Machine.memory (m : Machine) : Memory := { env := m.env, effects := m.effects }

@[simp] theorem Memory.memory_withFuel (s : Memory) (fuel : Nat) : (s.withFuel fuel).memory = s := rfl

@[simp] theorem Memory.fuel_withFuel (s : Memory) (fuel : Nat) : (s.withFuel fuel).fuel = fuel := rfl

@[simp] theorem Machine.withFuel_memory (m : Machine) : m.memory.withFuel m.fuel = m := rfl

theorem Machine.ext_memory {m m' : Machine} (h : m.memory = m'.memory) (hfuel : m'.fuel = m.fuel) :
    m' = m := by
  rw [← m.withFuel_memory, h, ← hfuel, m'.withFuel_memory]

/-- Something that happens in a run and that has a node of its own in a graph: a variable is
    evaluated or written, a method is called, a condition is tested, a method returns. -/
structure Event where
  kind : NodeKind
  origin : Origin
  /-- Of a test, whether the condition holds. -/
  holds : Option Bool := none
  deriving DecidableEq

/-- How the tests among events went. -/
def tests (events : List Event) : List Bool := events.filterMap Event.holds

@[simp] theorem tests_nil : tests [] = [] := rfl

@[simp] theorem tests_append (events later : List Event) :
    tests (events ++ later) = tests events ++ tests later := List.filterMap_append

@[simp] theorem tests_plain (kind : NodeKind) (origin : Origin) (events : List Event) :
    tests (⟨kind, origin, none⟩ :: events) = tests events := rfl

/-- The operands that the evaluator evaluates for an expression; none if it gives no meaning to
    the expression. The target of an assignment is not evaluated. -/
def Expr.evaluated : Expr → Option (List ExprId)
  | int _ | bool _ | null | var _ | increment .. => some []
  | unary _ operand => some [operand]
  | binary _ lhs rhs => some [lhs, rhs]
  | assign _ value | compound _ _ value => some [value]
  | call _ none args => some args
  | call _ (some _) _ | field .. | newObject _ | newArray .. => none

namespace Program

/-- The variable that an assignment to `target` writes. -/
def targetVar (p : Program) (target : ExprId) : Option VarId :=
  (p.exprs.get? target).bind Expr.namedVar

/-- What an expression does once its operands are evaluated: from the state before them, their
    values and the state after them, its own value, the state it leaves and its event. -/
def act (p : Program) (e : ExprId) (s : Memory) (values : List Int64) (mid : Memory) :
    Expr → Option (Int64 × Memory × List Event)
  | .int a => some (a, mid, [])
  | .bool b => some (ofTruth b, mid, [])
  | .null => some (0, mid, [])
  | .var v => some (mid.read v, mid, [⟨.read v, .expr e, none⟩])
  | .unary op _ => values.head?.map fun a => (op.eval a, mid, [])
  | .binary op _ _ => do
    let a ← op.eval (← values[0]?) (← values[1]?)
    return (a, mid, [])
  | .assign target value => do
    let v ← p.targetVar target
    let a ← values.head?
    return (a, mid.write v a, [⟨.write v value, .expr e, none⟩])
  | .compound op target _ => do
    let v ← p.targetVar target
    let a ← op.eval (s.read v) (← values.head?)
    return (a, mid.write v a, [⟨.readWrite v, .expr e, none⟩])
  | .increment op target => do
    let v ← p.targetVar target
    let a := op.eval (mid.read v)
    return (if op.isLeading then a else mid.read v, mid.write v a, [⟨.readWrite v, .expr e, none⟩])
  | .call method _ _ => do
    let sum := values.foldl (· + ·) 0
    let decl ← p.methods.get? method
    if decl.isPure then return (sum * 31 + 7, mid, [⟨.call e, .expr e, none⟩])
    return (Int64.ofNat mid.effects.size, mid.record sum, [⟨.call e, .expr e, none⟩])
  | .field .. | .newObject _ | .newArray .. => none

end Program

/-- Expressions evaluated one after the other: from a state, with events, to values and a state. -/
inductive Computes (p : Program) :
    List ExprId → Memory → List Event → List Int64 → Memory → Prop
  | nil {s : Memory} : Computes p [] s [] [] s
  | cons {e : ExprId} {x : Expr} {ins es : List ExprId} {s mid s₁ s' : Memory}
      {before own after : List Event} {values rest : List Int64} {a : Int64} :
    p.exprs.get? e = some x → x.evaluated = some ins → Computes p ins s before values mid →
    p.act e s values mid x = some (a, s₁, own) → Computes p es s₁ after rest s' →
    Computes p (e :: es) s (before ++ (own ++ after)) (a :: rest) s'

/-- A list of expressions, and the list of all that are evaluated with them, each before its
    operands. -/
inductive Evaluates (p : Program) : List ExprId → List ExprId → Prop
  | nil : Evaluates p [] []
  | cons {e : ExprId} {x : Expr} {ins es inner rest : List ExprId} : p.exprs.get? e = some x →
    x.evaluated = some ins → Evaluates p ins inner → Evaluates p es rest →
    Evaluates p (e :: es) (e :: (inner ++ rest))

/-- What a statement is run as. -/
inductive Task where
  | stmt (s : StmtId)
  | seq (ss : List StmtId)
  /-- The loop `s`, from the test of its condition on. -/
  | loop (s : StmtId) (condition : ExprId) (body : StmtId)

/-- The event of a test. -/
def tested (s : StmtId) (condition : ExprId) (holds : Bool) : Event :=
  ⟨.conditional condition, .stmt s, some holds⟩

@[simp] theorem tests_tested (s : StmtId) (condition : ExprId) (holds : Bool) (events : List Event) :
    tests (tested s condition holds :: events) = holds :: tests events := rfl

/-- Statements run: from a state, with events, to how they end and a state. -/
inductive Runs (p : Program) : Task → Memory → List Event → Completion → Memory → Prop
  | block {s : StmtId} {ss : List StmtId} {m m' : Memory} {events : List Event} {c : Completion} :
    p.stmts.get? s = some (.block ss) → Runs p (.seq ss) m events c m' →
    Runs p (.stmt s) m events c m'
  | declare {s : StmtId} {v : VarId} {m : Memory} : p.stmts.get? s = some (.declare v none) →
    Runs p (.stmt s) m [] .normal m
  | init {s : StmtId} {v : VarId} {e : ExprId} {m m' : Memory} {events : List Event} {a : Int64} :
    p.stmts.get? s = some (.declare v (some e)) → Computes p [e] m events [a] m' →
    Runs p (.stmt s) m (events ++ [⟨.write v e, .stmt s, none⟩]) .normal (m'.write v a)
  | expr {s : StmtId} {e : ExprId} {m m' : Memory} {events : List Event} {a : Int64} :
    p.stmts.get? s = some (.expr e) → Computes p [e] m events [a] m' →
    Runs p (.stmt s) m events .normal m'
  | thenBranch {s t : StmtId} {o : Option StmtId} {e : ExprId} {m mid m' : Memory}
      {events later : List Event} {a : Int64} {c : Completion} :
    p.stmts.get? s = some (.branch e t o) → Computes p [e] m events [a] mid → a ≠ 0 →
    Runs p (.stmt t) mid later c m' →
    Runs p (.stmt s) m (events ++ tested s e true :: later) c m'
  | elseBranch {s t : StmtId} {o : Option StmtId} {e : ExprId} {m mid m' : Memory}
      {events later : List Event} {c : Completion} :
    p.stmts.get? s = some (.branch e t o) → Computes p [e] m events [0] mid →
    Runs p (.seq o.toList) mid later c m' →
    Runs p (.stmt s) m (events ++ tested s e false :: later) c m'
  | loop {s b : StmtId} {e : ExprId} {m m' : Memory} {events : List Event} {c : Completion} :
    p.stmts.get? s = some (.loop e b) → Runs p (.loop s e b) m events c m' →
    Runs p (.stmt s) m events c m'
  | ret {s : StmtId} {value : Option ExprId} {m m' : Memory} {events : List Event}
      {values : List Int64} : p.stmts.get? s = some (.ret value) →
    Computes p value.toList m events values m' →
    Runs p (.stmt s) m (events ++ [⟨.goto, .stmt s, none⟩]) (.returned values.head?) m'
  | nil {m : Memory} : Runs p (.seq []) m [] .normal m
  | next {s : StmtId} {ss : List StmtId} {m mid m' : Memory} {events later : List Event}
      {c : Completion} : Runs p (.stmt s) m events .normal mid → Runs p (.seq ss) mid later c m' →
    Runs p (.seq (s :: ss)) m (events ++ later) c m'
  | stop {s : StmtId} {ss : List StmtId} {m m' : Memory} {events : List Event}
      {value : Option Int64} : Runs p (.stmt s) m events (.returned value) m' →
    Runs p (.seq (s :: ss)) m events (.returned value) m'
  | exit {s b : StmtId} {e : ExprId} {m m' : Memory} {events : List Event} :
    Computes p [e] m events [0] m' →
    Runs p (.loop s e b) m (events ++ [tested s e false]) .normal m'
  | again {s b : StmtId} {e : ExprId} {m m₁ m₂ m' : Memory} {events inner later : List Event}
      {a : Int64} {c : Completion} : Computes p [e] m events [a] m₁ → a ≠ 0 →
    Runs p (.stmt b) m₁ inner .normal m₂ → Runs p (.loop s e b) m₂ later c m' →
    Runs p (.loop s e b) m (events ++ tested s e true :: (inner ++ later)) c m'
  | leave {s b : StmtId} {e : ExprId} {m m₁ m' : Memory} {events inner : List Event} {a : Int64}
      {value : Option Int64} : Computes p [e] m events [a] m₁ → a ≠ 0 →
    Runs p (.stmt b) m₁ inner (.returned value) m' →
    Runs p (.loop s e b) m (events ++ tested s e true :: inner) (.returned value) m'

/-! ### One level of the evaluator -/

namespace Eval

variable {m m' : Machine} {a : Int64}

theorem gives_spend {u : Unit} :
    spend.Gives m u m' ↔ ∃ fuel, m.fuel = fuel + 1 ∧ m' = m.memory.withFuel fuel := by
  obtain ⟨env, effects, fuel⟩ := m
  cases fuel with
  | zero =>
    constructor
    · intro h
      cases h
    · rintro ⟨_, h, _⟩
      cases h
  | succ fuel =>
    constructor
    · intro h
      cases h
      exact ⟨fuel, rfl, rfl⟩
    · rintro ⟨_, h, rfl⟩
      cases h
      rfl

theorem gives_orDivision {o : Option Int64} :
    (orDivision o).Gives m a m' ↔ o = some a ∧ m' = m := by
  cases o with
  | none => exact ⟨fun h => absurd h not_gives_throw, fun h => nomatch h.1⟩
  | some b =>
    refine gives_pure.trans (and_congr_left fun _ => ?_)
    rw [Option.some.injEq, eq_comm]

theorem gives_read {v : VarId} : (read v).Gives m a m' ↔ a = m.memory.read v ∧ m' = m := by
  constructor
  · intro h
    cases h
    exact ⟨rfl, rfl⟩
  · rintro ⟨rfl, rfl⟩
    rfl

theorem gives_write {v : VarId} {u : Unit} :
    (write v a).Gives m u m' ↔ m' = (m.memory.write v a).withFuel m.fuel := by
  constructor
  · intro h
    cases h
    rfl
  · rintro rfl
    rfl

theorem gives_record {sum : Int64} : (record sum).Gives m a m' ↔
    a = Int64.ofNat m.memory.effects.size ∧ m' = (m.memory.record sum).withFuel m.fuel := by
  constructor
  · intro h
    cases h
    exact ⟨rfl, rfl⟩
  · rintro ⟨rfl, rfl⟩
    rfl

end Eval

namespace Program

open Eval

variable {p : Program} {m m' : Machine} {a : Int64}

theorem gives_evalTarget {target : ExprId} {v : VarId} :
    (p.evalTarget target).Gives m v m' ↔ p.targetVar target = some v ∧ m' = m := by
  rw [evalTarget, gives_bind, targetVar]
  constructor
  · rintro ⟨x, mid, hx, h⟩
    obtain ⟨hget, rfl⟩ := gives_lookup.1 hx
    rw [hget, Option.bind_some]
    cases hv : x.namedVar with
    | none =>
      rw [hv] at h
      exact absurd h not_gives_throw
    | some u =>
      rw [hv] at h
      obtain ⟨rfl, rfl⟩ := gives_pure.1 h
      exact ⟨rfl, rfl⟩
  · rintro ⟨h, rfl⟩
    obtain ⟨x, hx, hv⟩ := Option.bind_eq_some_iff.1 h
    refine ⟨x, m', gives_lookup.2 ⟨hx, rfl⟩, ?_⟩
    rw [hv]
    exact gives_pure.2 ⟨rfl, rfl⟩

/-- The fuel decides how deep the evaluator can go. -/
theorem evalExpr_gives {e : ExprId} : (p.evalExpr e).Gives m a m' ↔
    (unroll (throw .outOfFuel) p.evalExprStep (m.fuel + 1) e).Gives m a m' := Iff.rfl

theorem evalStmt_gives {s : StmtId} {c : Completion} : (p.evalStmt s).Gives m c m' ↔
    (unroll (throw .outOfFuel) p.evalStmtStep (m.fuel + 1) s).Gives m c m' := Iff.rfl

/-- An expression tests nothing itself. -/
theorem tests_of_act {e : ExprId} {s mid s' : Memory} {values : List Int64} {x : Expr}
    {own : List Event} (h : p.act e s values mid x = some (a, s', own)) : tests own = [] := by
  cases x with
  | int | bool | null | var =>
    cases h
    rfl
  | unary =>
    obtain ⟨_, _, h⟩ := Option.map_eq_some_iff.1 h
    cases h
    rfl
  | binary | assign | compound | increment =>
    simp only [act, Option.bind_eq_bind, Option.bind_eq_some_iff, Option.pure_def,
      Option.some.injEq, Prod.mk.injEq] at h
    grind [tests_plain, tests_nil]
  | call =>
    obtain ⟨_, _, h⟩ := Option.bind_eq_some_iff.1 h
    split at h <;> cases h <;> rfl
  | field | newObject | newArray => cases h

/-- What an expression does once its fuel is spent: `inside` gives the values of its operands, and
    it acts on them. -/
structure Acted (p : Program) (inside : ExprId → Eval Int64) (e : ExprId) (x : Expr) (m : Machine)
    (ins : List ExprId) (values : List Int64) (mid : Machine) (own : List Event) (a : Int64)
    (m' : Machine) : Prop where
  evaluated : x.evaluated = some ins
  operands : (ins.mapM inside).Gives m values mid
  act : p.act e m.memory values mid.memory x = some (a, m'.memory, own)
  fuel : m'.fuel = mid.fuel

/-- One level of the evaluator: an expression spends fuel, evaluates operands and acts. -/
theorem exists_acted {self : ExprId → Eval Int64} {e : ExprId}
    (h : (p.evalExprStep self e).Gives m a m') :
    ∃ fuel x ins values mid own, m.fuel = fuel + 1 ∧ p.exprs.get? e = some x ∧
      p.Acted self e x (m.memory.withFuel fuel) ins values mid own a m' := by
  have hnil (m : Machine) : (([] : List ExprId).mapM self).Gives m [] m :=
    gives_mapM_nil.2 ⟨rfl, rfl⟩
  simp only [evalExprStep, gives_bind, gives_spend, gives_lookup] at h
  obtain ⟨_, _, ⟨fuel, hfuel, rfl⟩, x, _, ⟨hx, rfl⟩, h⟩ := h
  refine ⟨fuel, x, ?_⟩
  cases x with
  | int | bool | null =>
    obtain ⟨rfl, rfl⟩ := gives_pure.1 h
    exact ⟨_, _, _, _, hfuel, hx, rfl, hnil _, rfl, rfl⟩
  | var v =>
    obtain ⟨rfl, rfl⟩ := gives_read.1 h
    exact ⟨_, _, _, _, hfuel, hx, rfl, hnil _, rfl, rfl⟩
  | unary op operand =>
    obtain ⟨b, mid, hb, h⟩ := gives_bind.1 h
    obtain ⟨rfl, rfl⟩ := gives_pure.1 h
    exact ⟨_, _, _, _, hfuel, hx, rfl, gives_mapM_one.2 ⟨b, hb, rfl⟩, rfl, rfl⟩
  | binary op lhs rhs =>
    simp only [gives_bind, gives_orDivision] at h
    obtain ⟨b, _, hb, c, _, hc, heval, rfl⟩ := h
    have hvalues := gives_mapM_cons.2 ⟨b, _, [c], hb, gives_mapM_one.2 ⟨c, hc, rfl⟩, rfl⟩
    exact ⟨_, _, _, [], hfuel, hx, rfl, hvalues, by simp [act, heval], rfl⟩
  | assign target value =>
    simp only [gives_bind, gives_evalTarget, gives_write, gives_pure] at h
    obtain ⟨v, _, ⟨hv, rfl⟩, b, mid, hb, _, _, rfl, rfl, rfl⟩ := h
    exact ⟨_, _, _, [⟨.write v value, .expr e, none⟩], hfuel, hx, rfl,
      gives_mapM_one.2 ⟨_, hb, rfl⟩, by simp [act, hv], rfl⟩
  | compound op target value =>
    simp only [gives_bind, gives_evalTarget, gives_read, gives_orDivision, gives_write,
      gives_pure] at h
    obtain ⟨v, _, ⟨hv, rfl⟩, _, _, ⟨rfl, rfl⟩, b, mid, hb, c, _, ⟨hc, rfl⟩, _, _, rfl, rfl, rfl⟩ := h
    rw [Memory.memory_withFuel] at hc
    exact ⟨_, _, _, [⟨.readWrite v, .expr e, none⟩], hfuel, hx, rfl,
      gives_mapM_one.2 ⟨_, hb, rfl⟩, by simp [act, hv, hc], rfl⟩
  | increment op target =>
    simp only [gives_bind, gives_evalTarget, gives_read, gives_write, gives_pure] at h
    obtain ⟨v, _, ⟨hv, rfl⟩, _, _, ⟨rfl, rfl⟩, _, _, rfl, rfl, rfl⟩ := h
    exact ⟨_, _, _, [⟨.readWrite v, .expr e, none⟩], hfuel, hx, rfl, hnil _, by simp [act, hv], rfl⟩
  | call method receiver args =>
    cases receiver with
    | some receiver => exact absurd h not_gives_throw
    | none =>
      simp only [gives_bind, gives_lookup] at h
      obtain ⟨values, mid, hvalues, decl, _, ⟨hdecl, rfl⟩, h⟩ := h
      refine ⟨_, _, _, [⟨.call e, .expr e, none⟩], hfuel, hx, rfl, hvalues, ?_, ?_⟩
      all_goals
        split at h
        · next hpure =>
          obtain ⟨rfl, rfl⟩ := gives_pure.1 h
          simp [act, hdecl, hpure]
        · next hpure =>
          obtain ⟨rfl, rfl⟩ := gives_record.1 h
          simp [act, hdecl, hpure]
  | field | newObject | newArray => exact absurd h not_gives_throw

/-- An expression that can act does so in the evaluator, if there is fuel for it. -/
theorem Acted.gives {self : ExprId → Eval Int64} {e : ExprId} {x : Expr} {fuel : Nat}
    {ins : List ExprId} {values : List Int64} {mid : Machine} {own : List Event}
    (h : p.Acted self e x (m.memory.withFuel fuel) ins values mid own a m')
    (hx : p.exprs.get? e = some x) (hfuel : m.fuel = fuel + 1) :
    (p.evalExprStep self e).Gives m a m' := by
  obtain ⟨hins, hvalues, hact, hfuel'⟩ := h
  simp only [evalExprStep, gives_bind, gives_spend, gives_lookup]
  refine ⟨(), _, ⟨fuel, hfuel, rfl⟩, x, _, ⟨hx, rfl⟩, ?_⟩
  cases x with
  | int | bool | null =>
    cases hins
    obtain ⟨rfl, rfl⟩ := gives_mapM_nil.1 hvalues
    simp only [Program.act, Option.some.injEq, Prod.mk.injEq] at hact
    exact gives_pure.2 ⟨hact.1.symm, Machine.ext_memory hact.2.1 hfuel'⟩
  | var v =>
    cases hins
    obtain ⟨rfl, rfl⟩ := gives_mapM_nil.1 hvalues
    simp only [Program.act, Option.some.injEq, Prod.mk.injEq] at hact
    exact gives_read.2 ⟨hact.1.symm, Machine.ext_memory hact.2.1 hfuel'⟩
  | unary op operand =>
    cases hins
    obtain ⟨b, hb, rfl⟩ := gives_mapM_one.1 hvalues
    simp only [Program.act, List.head?_cons, Option.map_some, Option.some.injEq, Prod.mk.injEq] at hact
    exact gives_bind.2 ⟨b, mid, hb, gives_pure.2 ⟨hact.1.symm, Machine.ext_memory hact.2.1 hfuel'⟩⟩
  | binary op lhs rhs =>
    cases hins
    obtain ⟨b, _, _, hb, hrest, rfl⟩ := gives_mapM_cons.1 hvalues
    obtain ⟨c, hc, rfl⟩ := gives_mapM_one.1 hrest
    obtain ⟨heval, hmem, _⟩ : op.eval b c = some a ∧ mid.memory = m'.memory ∧ own = [] := by
      simpa [Program.act, Option.bind_eq_some_iff] using hact
    simp only [gives_bind, gives_orDivision]
    exact ⟨b, _, hb, c, mid, hc, heval, Machine.ext_memory hmem hfuel'⟩
  | assign target value =>
    cases hins
    obtain ⟨b, hb, rfl⟩ := gives_mapM_one.1 hvalues
    obtain ⟨v, hv, rfl, hmem, _⟩ : ∃ v, p.targetVar target = some v ∧ b = a ∧
        mid.memory.write v b = m'.memory ∧ [⟨.write v value, .expr e, none⟩] = own := by
      simpa [Program.act, Option.bind_eq_some_iff] using hact
    simp only [gives_bind, gives_evalTarget, gives_write, gives_pure]
    exact ⟨v, _, ⟨hv, rfl⟩, b, mid, hb, (), _, rfl, rfl, Machine.ext_memory hmem hfuel'⟩
  | compound op target value =>
    cases hins
    obtain ⟨b, hb, rfl⟩ := gives_mapM_one.1 hvalues
    obtain ⟨v, hv, hc, hmem, _⟩ : ∃ v, p.targetVar target = some v ∧
        op.eval (m.memory.read v) b = some a ∧ mid.memory.write v a = m'.memory ∧
        [⟨.readWrite v, .expr e, none⟩] = own := by
      simpa [Program.act, Option.bind_eq_some_iff] using hact
    simp only [gives_bind, gives_evalTarget, gives_read, gives_orDivision, gives_write, gives_pure]
    exact ⟨v, _, ⟨hv, rfl⟩, _, _, ⟨rfl, rfl⟩, b, mid, hb, a, _, ⟨hc, rfl⟩, (), _, rfl, rfl,
      Machine.ext_memory hmem hfuel'⟩
  | increment op target =>
    cases hins
    obtain ⟨rfl, rfl⟩ := gives_mapM_nil.1 hvalues
    obtain ⟨v, hv, rfl, hmem, _⟩ : ∃ v, p.targetVar target = some v ∧
        (if op.isLeading then op.eval (m.memory.read v) else m.memory.read v) = a ∧
        m.memory.write v (op.eval (m.memory.read v)) = m'.memory ∧
        [⟨.readWrite v, .expr e, none⟩] = own := by
      simpa [Program.act, Option.bind_eq_some_iff] using hact
    simp only [gives_bind, gives_evalTarget, gives_read, gives_write, gives_pure]
    exact ⟨v, _, ⟨hv, rfl⟩, _, _, ⟨rfl, rfl⟩, (), _, rfl, rfl, Machine.ext_memory hmem hfuel'⟩
  | call method receiver args =>
    cases receiver with
    | some receiver => cases hins
    | none =>
      cases hins
      simp only [gives_bind, gives_lookup]
      simp only [Program.act, Option.bind_eq_bind, Option.bind_eq_some_iff] at hact
      obtain ⟨decl, hdecl, hact⟩ := hact
      refine ⟨values, mid, hvalues, decl, _, ⟨hdecl, rfl⟩, ?_⟩
      split at hact
      · next hpure =>
        simp only [Option.pure_def, Option.some.injEq, Prod.mk.injEq] at hact
        rw [if_pos hpure]
        exact gives_pure.2 ⟨hact.1.symm, Machine.ext_memory hact.2.1 hfuel'⟩
      · next hpure =>
        simp only [Option.pure_def, Option.some.injEq, Prod.mk.injEq] at hact
        rw [if_neg hpure]
        exact gives_record.2 ⟨hact.1.symm, Machine.ext_memory hact.2.1 hfuel'⟩
  | field | newObject | newArray => cases hins

end Program

/-! ### Expressions -/

section Expressions

open Eval

variable {p : Program} {m m' : Machine} {e : ExprId} {es es' : List ExprId} {s mid s' : Memory}
  {events later : List Event} {values rest : List Int64} {a : Int64}

theorem Computes.append (h : Computes p es s events values mid)
    (h' : Computes p es' mid later rest s') :
    Computes p (es ++ es') s (events ++ later) (values ++ rest) s' := by
  induction h with
  | nil => exact h'
  | cons hx hins hvalues hact _ _ ih =>
    rw [List.append_assoc, List.append_assoc]
    exact .cons hx hins hvalues hact (ih h')

theorem Computes.one {x : Expr} {ins : List ExprId} {before own : List Event}
    (hx : p.exprs.get? e = some x) (hins : x.evaluated = some ins)
    (hvalues : Computes p ins s before values mid) (hact : p.act e s values mid x = some (a, s', own)) :
    Computes p [e] s (before ++ own) [a] s' := by
  have h := Computes.cons hx hins hvalues hact .nil
  rwa [List.append_nil] at h

/-- A row of expressions is evaluated if each of them is. -/
theorem exists_computes_of_mapM {self : ExprId → Eval Int64}
    (hself : ∀ e m a m', (self e).Gives m a m' →
      ∃ events, Computes p [e] m.memory events [a] m'.memory)
    (h : (es.mapM self).Gives m values m') :
    ∃ events, Computes p es m.memory events values m'.memory := by
  induction es generalizing m values with
  | nil =>
    obtain ⟨rfl, rfl⟩ := gives_mapM_nil.1 h
    exact ⟨[], .nil⟩
  | cons e es ih =>
    obtain ⟨a, mid, rest, ha, hrest, rfl⟩ := gives_mapM_cons.1 h
    obtain ⟨before, hbefore⟩ := hself e m a mid ha
    obtain ⟨after, hafter⟩ := ih hrest
    exact ⟨_, hbefore.append hafter⟩

/-- An expression that the evaluator finishes with is evaluated. -/
theorem exists_computes (h : (p.evalExpr e).Gives m a m') :
    ∃ events, Computes p [e] m.memory events [a] m'.memory := by
  rw [Program.evalExpr_gives] at h
  generalize m.fuel + 1 = depth at h
  induction depth generalizing e m a m' with
  | zero => exact absurd h not_gives_throw
  | succ depth ih =>
    rw [unroll_succ] at h
    obtain ⟨fuel, x, ins, values, mid, own, _, hx, hacted⟩ := Program.exists_acted h
    obtain ⟨before, hbefore⟩ := exists_computes_of_mapM (fun _ _ _ _ h => ih h) hacted.operands
    exact ⟨_, .one hx hacted.evaluated hbefore hacted.act⟩

/-- What can be evaluated is evaluated by the evaluator, which spends one unit of fuel on each
    expression. -/
theorem Computes.exists_cost_mapM (h : Computes p es s events values s') :
    ∃ l, Evaluates p es l ∧ ∀ fuel depth, l.length ≤ fuel → l.length ≤ depth →
      (es.mapM (unroll (throw .outOfFuel) p.evalExprStep depth)).Gives (s.withFuel fuel) values
        (s'.withFuel (fuel - l.length)) := by
  induction h with
  | nil => exact ⟨[], .nil, fun _ _ _ _ => gives_mapM_nil.2 ⟨rfl, rfl⟩⟩
  | @cons e x ins es s mid s₁ s' before own after values rest a hx hins _ hact _ ih₁ ih₂ =>
    obtain ⟨inner, hinside, hinner⟩ := ih₁
    obtain ⟨others, houtside, hothers⟩ := ih₂
    refine ⟨_, .cons hx hins hinside houtside, fun fuel depth hfuel hdepth => ?_⟩
    rw [List.length_cons, List.length_append] at hfuel hdepth ⊢
    obtain ⟨fuel, rfl⟩ : ∃ k, fuel = k + 1 := ⟨fuel - 1, by omega⟩
    obtain ⟨depth, rfl⟩ : ∃ k, depth = k + 1 := ⟨depth - 1, by omega⟩
    -- The operands are one level further down than the expression and what comes after it.
    have hacted : p.Acted _ e x (s.withFuel fuel) ins values _ own a
        (s₁.withFuel (fuel - inner.length)) :=
      ⟨hins, hinner fuel depth (by omega) (by omega), hact, rfl⟩
    have hrest := hothers (fuel - inner.length) (depth + 1) (by omega) (by omega)
    rw [Nat.add_sub_add_right, ← Nat.sub_sub]
    exact gives_mapM_cons.2 ⟨a, _, rest, hacted.gives hx rfl, hrest, rfl⟩

/-- An expression is evaluated by the evaluator at a cost in fuel. -/
structure Program.ExprCosts (p : Program) (e : ExprId) (s : Memory) (a : Int64) (s' : Memory)
    (cost : Nat) : Prop where
  pos : 0 < cost
  gives : ∀ fuel, cost ≤ fuel →
    (p.evalExpr e).Gives (s.withFuel fuel) a (s'.withFuel (fuel - cost))

theorem Computes.exists_cost (h : Computes p [e] s events [a] s') :
    ∃ l, Evaluates p [e] l ∧ p.ExprCosts e s a s' l.length := by
  obtain ⟨l, hl, hcost⟩ := h.exists_cost_mapM
  refine ⟨l, hl, ?_, fun fuel hfuel => ?_⟩
  · cases hl with
    | cons => exact Nat.succ_pos _
  · obtain ⟨b, hb, hab⟩ := gives_mapM_one.1 (hcost fuel (fuel + 1) hfuel (by omega))
    rw [List.singleton_inj.1 hab]
    exact Program.evalExpr_gives.2 hb

/-- Nothing is tested while expressions are evaluated. -/
theorem Computes.tests_eq_nil (h : Computes p es s events values s') : tests events = [] := by
  induction h with
  | nil => rfl
  | @cons e x ins es s mid s₁ s' before own after values rest a _ _ _ hact _ ih₁ ih₂ =>
    rw [tests_append, tests_append, ih₁, ih₂, Program.tests_of_act hact]
    rfl

/-- Evaluation has one outcome at most, and one list of events. -/
theorem Computes.unique {events' : List Event} {values' : List Int64} {s'' : Memory}
    (h : Computes p es s events values s') (h' : Computes p es s events' values' s'') :
    events' = events ∧ values' = values ∧ s'' = s' := by
  induction h generalizing events' values' s'' with
  | nil =>
    cases h'
    exact ⟨rfl, rfl, rfl⟩
  | cons hx hins _ hact _ ih₁ ih₂ =>
    cases h' with
    | cons hx' hins' hvalues' hact' hrest' =>
      cases hx.symm.trans hx'
      cases hins.symm.trans hins'
      obtain ⟨rfl, rfl, rfl⟩ := ih₁ hvalues'
      cases hact.symm.trans hact'
      obtain ⟨rfl, rfl, rfl⟩ := ih₂ hrest'
      exact ⟨rfl, rfl, rfl⟩

theorem Computes.exists_value (h : Computes p [e] s events values s') : ∃ a, values = [a] := by
  cases h with
  | cons _ _ _ _ hrest =>
    cases hrest
    exact ⟨_, rfl⟩

end Expressions

/-! ### Statements -/

section Statements

open Eval

variable {p : Program} {m m' : Machine} {s : StmtId} {ss : List StmtId} {c : Completion}
  {task : Task} {events : List Event}

theorem Runs.one {n n' : Memory} (h : Runs p (.stmt s) n events c n') :
    Runs p (.seq [s]) n events c n' := by
  cases c with
  | normal =>
    rw [← List.append_nil events]
    exact .next h .nil
  | returned value => exact .stop h

theorem exists_runs_of_sequence {self : StmtId → Eval Completion}
    (hself : ∀ s m c m', (self s).Gives m c m' →
      ∃ events, Runs p (.stmt s) m.memory events c m'.memory)
    (h : (Eval.sequence self ss).Gives m c m') :
    ∃ events, Runs p (.seq ss) m.memory events c m'.memory := by
  induction ss generalizing m with
  | nil =>
    obtain ⟨rfl, rfl⟩ := gives_pure.1 h
    exact ⟨[], .nil⟩
  | cons s ss ih =>
    obtain ⟨d, mid, hd, h⟩ := gives_bind.1 h
    obtain ⟨events, hevents⟩ := hself s m d mid hd
    cases d with
    | returned value =>
      obtain ⟨rfl, rfl⟩ := gives_pure.1 h
      exact ⟨_, .stop hevents⟩
    | normal =>
      obtain ⟨later, hlater⟩ := ih h
      exact ⟨_, .next hevents hlater⟩

theorem exists_runs_of_loop {b : StmtId} {e : ExprId} {body : Eval Completion} {bound : Nat}
    (hbody : ∀ m c m', body.Gives m c m' →
      ∃ events, Runs p (.stmt b) m.memory events c m'.memory)
    (h : (Eval.loop (p.evalExpr e) body bound).Gives m c m') :
    ∃ events, Runs p (.loop s e b) m.memory events c m'.memory := by
  induction bound generalizing m with
  | zero => exact absurd h not_gives_throw
  | succ bound ih =>
    obtain ⟨a, mid, ha, h⟩ := gives_bind.1 h
    obtain ⟨events, hevents⟩ := exists_computes ha
    split at h
    · next hzero =>
      obtain ⟨rfl, rfl⟩ := gives_pure.1 h
      exact ⟨_, .exit (hzero ▸ hevents)⟩
    · next hne =>
      obtain ⟨d, mid', hd, h⟩ := gives_bind.1 h
      obtain ⟨inner, hinner⟩ := hbody mid d mid' hd
      cases d with
      | returned value =>
        obtain ⟨rfl, rfl⟩ := gives_pure.1 h
        exact ⟨_, .leave hevents hne hinner⟩
      | normal =>
        obtain ⟨later, hlater⟩ := ih h
        exact ⟨_, .again hevents hne hinner hlater⟩

/-- A statement that the evaluator finishes with is run. -/
theorem exists_runs (h : (p.evalStmt s).Gives m c m') :
    ∃ events, Runs p (.stmt s) m.memory events c m'.memory := by
  rw [Program.evalStmt_gives] at h
  generalize m.fuel + 1 = depth at h
  induction depth generalizing s m c m' with
  | zero => exact absurd h not_gives_throw
  | succ depth ih =>
    rw [unroll_succ, Program.evalStmtStep] at h
    simp only [gives_bind, gives_spend, gives_lookup] at h
    obtain ⟨_, _, ⟨fuel, _, rfl⟩, st, _, ⟨hs, rfl⟩, h⟩ := h
    cases st with
    | block ss =>
      obtain ⟨events, hevents⟩ := exists_runs_of_sequence (fun _ _ _ _ h => ih h) h
      exact ⟨events, .block hs hevents⟩
    | declare v init =>
      cases init with
      | none =>
        obtain ⟨rfl, rfl⟩ := gives_pure.1 h
        exact ⟨[], .declare hs⟩
      | some e =>
        simp only [gives_bind, gives_write, gives_pure] at h
        obtain ⟨a, mid, ha, _, _, rfl, rfl, rfl⟩ := h
        obtain ⟨events, hevents⟩ := exists_computes ha
        exact ⟨_, .init hs hevents⟩
    | expr e =>
      simp only [gives_bind, gives_pure] at h
      obtain ⟨a, _, ha, rfl, rfl⟩ := h
      obtain ⟨events, hevents⟩ := exists_computes ha
      exact ⟨events, .expr hs hevents⟩
    | branch e t o =>
      obtain ⟨a, mid, ha, h⟩ := gives_bind.1 h
      obtain ⟨events, hevents⟩ := exists_computes ha
      split at h
      · next hne =>
        obtain ⟨later, hlater⟩ := ih h
        exact ⟨_, .thenBranch hs hevents hne hlater⟩
      · next hzero =>
        obtain rfl := not_not.1 hzero
        cases o with
        | none =>
          obtain ⟨rfl, rfl⟩ := gives_pure.1 h
          exact ⟨_, .elseBranch hs hevents .nil⟩
        | some t =>
          obtain ⟨later, hlater⟩ := ih h
          exact ⟨_, .elseBranch hs hevents hlater.one⟩
    | loop e b =>
      obtain ⟨events, hevents⟩ := exists_runs_of_loop (fun _ _ _ h => ih h) h
      exact ⟨events, .loop hs hevents⟩
    | ret value =>
      cases value with
      | none =>
        obtain ⟨rfl, rfl⟩ := gives_pure.1 h
        exact ⟨_, .ret hs .nil⟩
      | some e =>
        simp only [gives_bind, gives_pure] at h
        obtain ⟨a, _, ha, rfl, rfl⟩ := h
        obtain ⟨events, hevents⟩ := exists_computes ha
        exact ⟨_, .ret hs hevents⟩

/-- How the evaluator runs a task, given how it runs statements and how often a loop may go
    round. -/
def Task.eval (p : Program) (self : StmtId → Eval Completion) (bound : Nat) : Task → Eval Completion
  | stmt s => self s
  | seq ss => Eval.sequence self ss
  | loop _ e b => Eval.loop (p.evalExpr e) (self b) bound

/-- A task is run by the evaluator at a cost in fuel. -/
def Task.Costs (p : Program) (task : Task) (n : Memory) (c : Completion) (n' : Memory) (cost : Nat) :
    Prop :=
  ∀ fuel depth bound, cost ≤ fuel → cost ≤ depth → cost ≤ bound →
    (task.eval p (unroll (throw .outOfFuel) p.evalStmtStep depth) bound).Gives (n.withFuel fuel) c
      (n'.withFuel (fuel - cost))

theorem gives_sequence_one {self : StmtId → Eval Completion} :
    (Eval.sequence self [s]).Gives m c m' ↔ (self s).Gives m c m' := by
  rw [Eval.sequence, gives_bind]
  constructor
  · rintro ⟨d, mid, hd, h⟩
    cases d with
    | normal | returned =>
      obtain ⟨rfl, rfl⟩ := gives_pure.1 h
      exact hd
  · intro h
    refine ⟨c, m', h, ?_⟩
    cases c with
    | normal | returned => exact gives_pure.2 ⟨rfl, rfl⟩

/-- A statement spends fuel, is looked up and goes on according to its form. -/
theorem gives_enter {st : Stmt} {f : Stmt → Eval Completion} {n : Memory} {fuel : Nat}
    (hs : p.stmts.get? s = some st) (h : (f st).Gives (n.withFuel fuel) c m') :
    (do spend; f (← p.stmts.get s) : Eval Completion).Gives (n.withFuel (fuel + 1)) c m' :=
  gives_bind.2 ⟨(), _, gives_spend.2 ⟨fuel, rfl, rfl⟩,
    gives_bind.2 ⟨st, _, gives_lookup.2 ⟨hs, rfl⟩, h⟩⟩

/-! The cost of a task, from what it consists of. -/

namespace Task.Costs

variable {t b : StmtId} {o : Option StmtId} {v : VarId} {e : ExprId} {a : Int64}
  {value : Option Int64} {n n₁ n₂ n' : Memory} {cost inner later : Nat}

/-- A statement costs one more than what it consists of. -/
theorem of_step (h : ∀ fuel depth, cost ≤ fuel → cost ≤ depth →
      (p.evalStmtStep (unroll (throw .outOfFuel) p.evalStmtStep depth) s).Gives
        (n.withFuel (fuel + 1)) c (n'.withFuel (fuel - cost))) :
    (Task.stmt s).Costs p n c n' (cost + 1) := by
  intro fuel depth _ hfuel hdepth _
  obtain ⟨fuel, rfl⟩ : ∃ k, fuel = k + 1 := ⟨fuel - 1, by omega⟩
  obtain ⟨depth, rfl⟩ : ∃ k, depth = k + 1 := ⟨depth - 1, by omega⟩
  rw [Nat.add_sub_add_right]
  exact h fuel depth (by omega) (by omega)

theorem block (hs : p.stmts.get? s = some (.block ss)) (h : (Task.seq ss).Costs p n c n' cost) :
    (Task.stmt s).Costs p n c n' (cost + 1) :=
  of_step fun fuel depth hfuel hdepth =>
    gives_enter hs (h fuel depth cost hfuel hdepth (Nat.le_refl _))

theorem declare (hs : p.stmts.get? s = some (.declare v none)) :
    (Task.stmt s).Costs p n .normal n 1 :=
  of_step fun _ _ _ _ => gives_enter hs (gives_pure.2 ⟨rfl, rfl⟩)

theorem init (hs : p.stmts.get? s = some (.declare v (some e))) (he : p.ExprCosts e n a n' cost) :
    (Task.stmt s).Costs p n .normal (n'.write v a) (cost + 1) := by
  refine of_step fun fuel depth hfuel _ => gives_enter hs ?_
  simp only [gives_bind, gives_write, gives_pure]
  exact ⟨_, _, he.gives fuel hfuel, (), _, rfl, trivial, rfl⟩

theorem expr (hs : p.stmts.get? s = some (.expr e)) (he : p.ExprCosts e n a n' cost) :
    (Task.stmt s).Costs p n .normal n' (cost + 1) :=
  of_step fun fuel _ hfuel _ => gives_enter hs
    (gives_bind.2 ⟨_, _, he.gives fuel hfuel, gives_pure.2 ⟨rfl, rfl⟩⟩)

theorem thenBranch (hs : p.stmts.get? s = some (.branch e t o)) (he : p.ExprCosts e n a n₁ cost)
    (hne : a ≠ 0) (h : (Task.stmt t).Costs p n₁ c n' later) :
    (Task.stmt s).Costs p n c n' (cost + later + 1) := by
  refine of_step fun fuel depth hfuel hdepth => gives_enter hs ?_
  refine gives_bind.2 ⟨_, _, he.gives fuel (by omega), ?_⟩
  rw [if_pos hne, ← Nat.sub_sub]
  exact h (fuel - cost) depth later (by omega) (by omega) (Nat.le_refl _)

theorem elseBranch (hs : p.stmts.get? s = some (.branch e t o)) (he : p.ExprCosts e n 0 n₁ cost)
    (h : (Task.seq o.toList).Costs p n₁ c n' later) :
    (Task.stmt s).Costs p n c n' (cost + later + 1) := by
  refine of_step fun fuel depth hfuel hdepth => gives_enter hs ?_
  refine gives_bind.2 ⟨_, _, he.gives fuel (by omega), ?_⟩
  rw [if_neg (not_not.2 rfl), ← Nat.sub_sub]
  have h := h (fuel - cost) depth later (by omega) (by omega) (Nat.le_refl _)
  cases o with
  | none => exact h
  | some t => exact gives_sequence_one.1 h

theorem loop (hs : p.stmts.get? s = some (.loop e b)) (h : (Task.loop s e b).Costs p n c n' cost) :
    (Task.stmt s).Costs p n c n' (cost + 1) :=
  of_step fun fuel depth hfuel hdepth =>
    gives_enter hs (h fuel depth (fuel + 1) hfuel hdepth (by omega))

theorem ret (hs : p.stmts.get? s = some (.ret (some e))) (he : p.ExprCosts e n a n' cost) :
    (Task.stmt s).Costs p n (.returned (some a)) n' (cost + 1) :=
  of_step fun fuel _ hfuel _ => gives_enter hs
    (gives_bind.2 ⟨_, _, he.gives fuel hfuel, gives_pure.2 ⟨rfl, rfl⟩⟩)

theorem ret_none (hs : p.stmts.get? s = some (.ret none)) :
    (Task.stmt s).Costs p n (.returned none) n 1 :=
  of_step fun _ _ _ _ => gives_enter hs (gives_pure.2 ⟨rfl, rfl⟩)

theorem nil : (Task.seq []).Costs p n .normal n 0 := fun _ _ _ _ _ _ => gives_pure.2 ⟨rfl, rfl⟩

theorem next (h : (Task.stmt s).Costs p n .normal n₁ cost)
    (h' : (Task.seq ss).Costs p n₁ c n' later) : (Task.seq (s :: ss)).Costs p n c n' (cost + later) := by
  intro fuel depth bound hfuel hdepth hbound
  rw [← Nat.sub_sub]
  exact gives_bind.2 ⟨_, _, h fuel depth bound (by omega) (by omega) (by omega),
    h' (fuel - cost) depth bound (by omega) (by omega) (by omega)⟩

theorem stop (h : (Task.stmt s).Costs p n (.returned value) n' cost) :
    (Task.seq (s :: ss)).Costs p n (.returned value) n' cost := fun fuel depth bound hfuel hdepth hbound =>
  gives_bind.2 ⟨_, _, h fuel depth bound hfuel hdepth hbound, gives_pure.2 ⟨rfl, rfl⟩⟩

theorem exit (he : p.ExprCosts e n 0 n' cost) : (Task.loop s e b).Costs p n .normal n' cost := by
  intro fuel depth bound hfuel _ hbound
  have := he.pos
  obtain ⟨bound, rfl⟩ : ∃ k, bound = k + 1 := ⟨bound - 1, by omega⟩
  exact gives_bind.2 ⟨_, _, he.gives fuel hfuel, gives_pure.2 ⟨rfl, rfl⟩⟩

theorem again (he : p.ExprCosts e n a n₁ cost) (hne : a ≠ 0)
    (h : (Task.stmt b).Costs p n₁ .normal n₂ inner) (h' : (Task.loop s e b).Costs p n₂ c n' later) :
    (Task.loop s e b).Costs p n c n' (cost + inner + later) := by
  intro fuel depth bound hfuel hdepth hbound
  have := he.pos
  obtain ⟨bound, rfl⟩ : ∃ k, bound = k + 1 := ⟨bound - 1, by omega⟩
  refine gives_bind.2 ⟨_, _, he.gives fuel (by omega), ?_⟩
  rw [if_neg hne, ← Nat.sub_sub, ← Nat.sub_sub]
  -- The test has spent fuel, so there is one round less left to bound.
  exact gives_bind.2 ⟨_, _, h (fuel - cost) depth inner (by omega) (by omega) (Nat.le_refl _),
    h' (fuel - cost - inner) depth bound (by omega) (by omega) (by omega)⟩

theorem leave (he : p.ExprCosts e n a n₁ cost) (hne : a ≠ 0)
    (h : (Task.stmt b).Costs p n₁ (.returned value) n' inner) :
    (Task.loop s e b).Costs p n (.returned value) n' (cost + inner) := by
  intro fuel depth bound hfuel hdepth hbound
  have := he.pos
  obtain ⟨bound, rfl⟩ : ∃ k, bound = k + 1 := ⟨bound - 1, by omega⟩
  refine gives_bind.2 ⟨_, _, he.gives fuel (by omega), ?_⟩
  rw [if_neg hne, ← Nat.sub_sub]
  exact gives_bind.2 ⟨_, _, h (fuel - cost) depth inner (by omega) (by omega) (Nat.le_refl _),
    gives_pure.2 ⟨rfl, rfl⟩⟩

end Task.Costs

/-- What can be run is run by the evaluator, at some cost in fuel. -/
theorem Runs.exists_costs {n n' : Memory} (h : Runs p task n events c n') :
    ∃ cost, task.Costs p n c n' cost := by
  induction h with
  | block hs _ ih =>
    obtain ⟨cost, hcost⟩ := ih
    exact ⟨_, .block hs hcost⟩
  | declare hs => exact ⟨_, .declare hs⟩
  | init hs he =>
    obtain ⟨_, _, hcost⟩ := he.exists_cost
    exact ⟨_, .init hs hcost⟩
  | expr hs he =>
    obtain ⟨_, _, hcost⟩ := he.exists_cost
    exact ⟨_, .expr hs hcost⟩
  | thenBranch hs he hne _ ih =>
    obtain ⟨_, _, hcost⟩ := he.exists_cost
    obtain ⟨later, hlater⟩ := ih
    exact ⟨_, .thenBranch hs hcost hne hlater⟩
  | elseBranch hs he _ ih =>
    obtain ⟨_, _, hcost⟩ := he.exists_cost
    obtain ⟨later, hlater⟩ := ih
    exact ⟨_, .elseBranch hs hcost hlater⟩
  | loop hs _ ih =>
    obtain ⟨cost, hcost⟩ := ih
    exact ⟨_, .loop hs hcost⟩
  | @ret s value n n' events values hs he =>
    cases value with
    | none =>
      cases he
      exact ⟨_, .ret_none hs⟩
    | some e =>
      obtain ⟨a, rfl⟩ := he.exists_value
      obtain ⟨_, _, hcost⟩ := he.exists_cost
      exact ⟨_, .ret hs hcost⟩
  | nil => exact ⟨_, .nil⟩
  | next _ _ ih₁ ih₂ =>
    obtain ⟨cost, hcost⟩ := ih₁
    obtain ⟨later, hlater⟩ := ih₂
    exact ⟨_, hcost.next hlater⟩
  | stop _ ih =>
    obtain ⟨cost, hcost⟩ := ih
    exact ⟨_, hcost.stop⟩
  | exit he =>
    obtain ⟨_, _, hcost⟩ := he.exists_cost
    exact ⟨_, .exit hcost⟩
  | again he hne _ _ ih₁ ih₂ =>
    obtain ⟨_, _, hcost⟩ := he.exists_cost
    obtain ⟨inner, hinner⟩ := ih₁
    obtain ⟨later, hlater⟩ := ih₂
    exact ⟨_, .again hcost hne hinner hlater⟩
  | leave he hne _ ih =>
    obtain ⟨_, _, hcost⟩ := he.exists_cost
    obtain ⟨inner, hinner⟩ := ih
    exact ⟨_, .leave hcost hne hinner⟩

/-- A statement that can be run is run by the evaluator, for all fuel from some amount on. -/
theorem Runs.exists_cost {n n' : Memory} (h : Runs p (.stmt s) n events c n') :
    ∃ cost, ∀ fuel, cost ≤ fuel →
      (p.evalStmt s).Gives (n.withFuel fuel) c (n'.withFuel (fuel - cost)) := by
  obtain ⟨cost, hcost⟩ := h.exists_costs
  exact ⟨cost, fun fuel hfuel => hcost fuel (fuel + 1) cost hfuel (by omega) (Nat.le_refl _)⟩

/-- A run has one outcome at most, and one list of events. -/
theorem Runs.unique {n n₁ n₂ : Memory} {c' : Completion} {events' : List Event}
    (h : Runs p task n events c n₁) (h' : Runs p task n events' c' n₂) :
    events' = events ∧ c' = c ∧ n₂ = n₁ := by
  induction h generalizing events' c' n₂ with
  | block hs _ ih =>
    cases h'
    case block hs' h' =>
      cases hs.symm.trans hs'
      exact ih h'
    all_goals cases hs.symm.trans ‹p.stmts.get? _ = some _›
  | declare hs =>
    cases h'
    case declare hs' => exact ⟨rfl, rfl, rfl⟩
    all_goals cases hs.symm.trans ‹p.stmts.get? _ = some _›
  | init hs he =>
    cases h'
    case init hs' he' =>
      cases hs.symm.trans hs'
      obtain ⟨rfl, hvalues, rfl⟩ := he.unique he'
      cases hvalues
      exact ⟨rfl, rfl, rfl⟩
    all_goals cases hs.symm.trans ‹p.stmts.get? _ = some _›
  | expr hs he =>
    cases h'
    case expr hs' he' =>
      cases hs.symm.trans hs'
      obtain ⟨rfl, _, rfl⟩ := he.unique he'
      exact ⟨rfl, rfl, rfl⟩
    all_goals cases hs.symm.trans ‹p.stmts.get? _ = some _›
  | thenBranch hs he hne _ ih =>
    cases h'
    case thenBranch _ hs' he' h' =>
      cases hs.symm.trans hs'
      obtain ⟨rfl, _, rfl⟩ := he.unique he'
      obtain ⟨rfl, rfl, rfl⟩ := ih h'
      exact ⟨rfl, rfl, rfl⟩
    case elseBranch hs' he' _ =>
      cases hs.symm.trans hs'
      obtain ⟨_, hvalues, _⟩ := he.unique he'
      cases hvalues
      exact absurd rfl hne
    all_goals cases hs.symm.trans ‹p.stmts.get? _ = some _›
  | elseBranch hs he _ ih =>
    cases h'
    case elseBranch hs' he' h' =>
      cases hs.symm.trans hs'
      obtain ⟨rfl, _, rfl⟩ := he.unique he'
      obtain ⟨rfl, rfl, rfl⟩ := ih h'
      exact ⟨rfl, rfl, rfl⟩
    case thenBranch hne hs' he' _ =>
      cases hs.symm.trans hs'
      obtain ⟨_, hvalues, _⟩ := he.unique he'
      cases hvalues
      exact absurd rfl hne
    all_goals cases hs.symm.trans ‹p.stmts.get? _ = some _›
  | loop hs _ ih =>
    cases h'
    case loop hs' h' =>
      cases hs.symm.trans hs'
      exact ih h'
    all_goals cases hs.symm.trans ‹p.stmts.get? _ = some _›
  | ret hs he =>
    cases h'
    case ret hs' he' =>
      cases hs.symm.trans hs'
      obtain ⟨rfl, rfl, rfl⟩ := he.unique he'
      exact ⟨rfl, rfl, rfl⟩
    all_goals cases hs.symm.trans ‹p.stmts.get? _ = some _›
  | nil =>
    cases h'
    exact ⟨rfl, rfl, rfl⟩
  | next _ _ ih₁ ih₂ =>
    cases h' with
    | next h₁ h₂ =>
      obtain ⟨rfl, _, rfl⟩ := ih₁ h₁
      obtain ⟨rfl, rfl, rfl⟩ := ih₂ h₂
      exact ⟨rfl, rfl, rfl⟩
    | stop h₁ => cases (ih₁ h₁).2.1
  | stop _ ih =>
    cases h' with
    | next h₁ => cases (ih h₁).2.1
    | stop h₁ => exact ih h₁
  | exit he =>
    cases h' with
    | exit he' =>
      obtain ⟨rfl, _, rfl⟩ := he.unique he'
      exact ⟨rfl, rfl, rfl⟩
    | again he' hne | leave he' hne =>
      obtain ⟨_, hvalues, _⟩ := he.unique he'
      cases hvalues
      exact absurd rfl hne
  | again he hne _ _ ih₁ ih₂ =>
    cases h' with
    | exit he' =>
      obtain ⟨_, hvalues, _⟩ := he.unique he'
      cases hvalues
      exact absurd rfl hne
    | again he' _ h₁ h₂ =>
      obtain ⟨rfl, _, rfl⟩ := he.unique he'
      obtain ⟨rfl, _, rfl⟩ := ih₁ h₁
      obtain ⟨rfl, rfl, rfl⟩ := ih₂ h₂
      exact ⟨rfl, rfl, rfl⟩
    | leave he' _ h₁ =>
      obtain ⟨rfl, _, rfl⟩ := he.unique he'
      cases (ih₁ h₁).2.1
  | leave he hne _ ih =>
    cases h' with
    | exit he' =>
      obtain ⟨_, hvalues, _⟩ := he.unique he'
      cases hvalues
      exact absurd rfl hne
    | again he' _ h₁ =>
      obtain ⟨rfl, _, rfl⟩ := he.unique he'
      cases (ih h₁).2.1
    | leave he' _ h₁ =>
      obtain ⟨rfl, _, rfl⟩ := he.unique he'
      obtain ⟨rfl, hc, rfl⟩ := ih h₁
      exact ⟨rfl, hc, rfl⟩

end Statements

end Dataflow
