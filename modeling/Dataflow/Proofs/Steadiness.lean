import Dataflow.Proofs.Evaluation
import Dataflow.Proofs.Purity

/-!
# Evaluating what has no side effects

An oracle answers questions about expressions without evaluating them. Where the declared oracle
says that an expression has no side effects, the evaluator leaves the state as it is. What it finds
depends on the variables that the expression names and on nothing else, be it a value or that there
is none, and so does the fuel that it takes.

Oracle, references and evaluator each go through an expression in their own way. They are brought
together by the list of everything inside it, which both questions are about.

* `Eval.Steady`: a part of a run that goes alike in two states and leaves both alone;
* `Program.exists_spans_of_subexprs`: questions that get an answer are about a finite expression;
* `Program.unroll_steady`: evaluating such an expression is steady;
* `Oracle.declared_sound`: the statement above.
-/

namespace Dataflow

/-! ### Parts of runs that go alike -/

namespace Eval

variable {α β : Type} {s t : Memory} {x : Eval α}

/-- A part of a run that leaves each of two states as it is, and has the same result and takes the
    same fuel in both. -/
def Steady (x : Eval α) (s t : Memory) : Prop :=
  ∀ fuel, ∃ result left, left ≤ fuel ∧ x.run.run (s.withFuel fuel) = .ok (result, s.withFuel left) ∧
    x.run.run (t.withFuel fuel) = .ok (result, t.withFuel left)

theorem steady_pure (a : α) : (pure a : Eval α).Steady s t := fun fuel =>
  ⟨.ok a, fuel, Nat.le_refl _, rfl, rfl⟩

theorem steady_throw (halt : Halt) : (throw halt : Eval α).Steady s t := fun fuel =>
  ⟨.error halt, fuel, Nat.le_refl _, rfl, rfl⟩

theorem Steady.bind {f : α → Eval β} (hx : x.Steady s t) (hf : ∀ a, (f a).Steady s t) :
    (x >>= f).Steady s t := by
  intro fuel
  obtain ⟨result, left, hleft, hs, ht⟩ := hx fuel
  cases result with
  | error halt =>
    exact ⟨.error halt, left, hleft, Run.bind_eq_ok.2 ⟨_, hs, rfl⟩, Run.bind_eq_ok.2 ⟨_, ht, rfl⟩⟩
  | ok a =>
    obtain ⟨result, rest, hrest, hs', ht'⟩ := hf a left
    exact ⟨result, rest, Nat.le_trans hrest hleft, Run.bind_eq_ok.2 ⟨_, hs, hs'⟩,
      Run.bind_eq_ok.2 ⟨_, ht, ht'⟩⟩

theorem steady_spend : spend.Steady s t := fun fuel =>
  match fuel with
  | 0 => ⟨.error .outOfFuel, 0, Nat.le_refl _, rfl, rfl⟩
  | fuel + 1 => ⟨.ok (), fuel, Nat.le_succ fuel, rfl, rfl⟩

theorem steady_read {v : VarId} (h : t.read v = s.read v) : (read v).Steady s t := fun fuel =>
  ⟨.ok (s.read v), fuel, Nat.le_refl _, rfl, by rw [← h]; rfl⟩

theorem steady_orDivision (o : Option Int64) : (orDivision o).Steady s t := by
  cases o with
  | none => exact steady_throw .division
  | some a => exact steady_pure a

/-- A look-up in a slot that is there. -/
theorem steady_lookup {name : String} {a : Arena name α} {h : Handle name} {y : α} {f : α → Eval β}
    (hy : a.get? h = some y) (hf : (f y).Steady s t) : (liftM (a.get h) >>= f : Eval β).Steady s t := by
  rw [Arena.get_eq_ok_iff.2 hy]
  exact hf

theorem steady_mapM {f : α → Eval β} {as : List α} (h : ∀ a ∈ as, (f a).Steady s t) :
    (as.mapM f).Steady s t := by
  induction as with
  | nil =>
    rw [List.mapM_nil]
    exact steady_pure []
  | cons a as ih =>
    rw [List.forall_mem_cons] at h
    rw [List.mapM_cons]
    exact h.1.bind fun _ => (ih h.2).bind fun _ => steady_pure _

end Eval

namespace Program

variable {p : Program} {e : ExprId} {x : Expr} {es l : List ExprId}

/-! ### What the questions are about -/

theorem exists_spans_of_mapM_subexprs {depth : Nat} {lists : List (List (ExprId × Expr))}
    (h : es.mapM (unroll (throw .endless) p.subexprsStep depth) = (.ok lists : Run _)) :
    ∃ l, Spans p es l ∧ lists.flatten = p.entriesOf l := by
  induction depth generalizing es lists with
  | zero =>
    cases es with
    | nil =>
      cases h
      exact ⟨[], .nil, rfl⟩
    | cons e es =>
      rw [List.mapM_cons] at h
      obtain ⟨_, hfirst, _⟩ := Run.bind_eq_ok.1 h
      cases hfirst
  | succ depth ih =>
    induction es generalizing lists with
    | nil =>
      cases h
      exact ⟨[], .nil, rfl⟩
    | cons e es ihes =>
      rw [List.mapM_cons] at h
      obtain ⟨first, hfirst, h⟩ := Run.bind_eq_ok.1 h
      obtain ⟨others, hothers, h⟩ := Run.bind_eq_ok.1 h
      cases h
      -- The operands are one level further down, the other expressions are on the same level.
      rw [unroll_succ, subexprsStep] at hfirst
      obtain ⟨x, hx, hfirst⟩ := Run.bind_eq_ok.1 hfirst
      obtain ⟨below, hbelow, hfirst⟩ := Run.bind_eq_ok.1 hfirst
      cases hfirst
      rw [Arena.get_eq_ok_iff] at hx
      obtain ⟨inner, hinner, hflat⟩ := ih hbelow
      obtain ⟨rest, hrest, hflat'⟩ := ihes hothers
      refine ⟨_, .cons hx hinner hrest, ?_⟩
      rw [List.flatten_cons, hflat, hflat']
      simp [entriesOf, hx]

/-- What is inside an expression can be listed, if the subexpressions are found. -/
theorem exists_spans_of_subexprs {entries : List (ExprId × Expr)} (h : p.subexprs e = .ok entries) :
    ∃ l, Spans p [e] l ∧ entries = p.entriesOf l := by
  have hone : [e].mapM (unroll (throw .endless) p.subexprsStep p.exprDepth) =
      (.ok [entries] : Run _) := by
    rw [List.mapM_cons, List.mapM_nil]
    exact Run.bind_eq_ok.2 ⟨entries, h, rfl⟩
  obtain ⟨l, hl, hflat⟩ := exists_spans_of_mapM_subexprs hone
  exact ⟨l, hl, by rw [← hflat, List.flatten_cons, List.flatten_nil, List.append_nil]⟩

theorem isImpureAlone_of_mapM {entries : List (ExprId × Expr)} {impure : List Bool}
    (h : entries.mapM (fun entry => p.isImpureAlone entry.1 entry.2) = .ok impure)
    (hnone : impure.any id = false) : ∀ entry ∈ entries, p.isImpureAlone entry.1 entry.2 = .ok false := by
  induction entries generalizing impure with
  | nil => exact fun entry hentry => absurd hentry List.not_mem_nil
  | cons entry entries ih =>
    rw [List.mapM_cons] at h
    obtain ⟨first, hfirst, h⟩ := Run.bind_eq_ok.1 h
    obtain ⟨others, hothers, h⟩ := Run.bind_eq_ok.1 h
    cases h
    rw [List.any_cons, Bool.or_eq_false_iff] at hnone
    rw [List.forall_mem_cons]
    exact ⟨hnone.1 ▸ hfirst, ih hothers hnone.2⟩

/-- A call without side effects is one of a method that is there and is declared pure. -/
theorem exists_pure_of_isImpureAlone {method : MethodId} {receiver : Option ExprId}
    {args : List ExprId} (hx : p.exprs.get? e = some (.call method receiver args))
    (h : p.isImpureAlone e (.call method receiver args) = .ok false) :
    ∃ decl, p.methods.get? method = some decl ∧ decl.isPure = true := by
  obtain ⟨_, hget, h⟩ := Run.bind_eq_ok.1 (show p.callIsImpure e = .ok false from h)
  cases hx.symm.trans (Arena.get_eq_ok_iff.1 hget)
  obtain ⟨decl, hdecl, h⟩ := Run.bind_eq_ok.1 h
  refine ⟨decl, Arena.get_eq_ok_iff.1 hdecl, ?_⟩
  cases hpure : decl.isPure with
  | true => rfl
  | false =>
    rw [hpure] at h
    cases h

/-! ### Evaluating alike -/

open Eval

variable {s t : Memory} {self : ExprId → Eval Int64}

/-- One level of the evaluator: an expression without side effects goes alike in two states if its
    operands do, and if both have the same value of the variable that it names. -/
theorem evalExprStep_steady (hx : p.exprs.get? e = some x) (hpure : p.isImpureAlone e x = .ok false)
    (hread : ∀ v, x.namedVar = some v → t.read v = s.read v)
    (hself : ∀ o ∈ x.operands, (self o).Steady s t) : (p.evalExprStep self e).Steady s t := by
  refine steady_spend.bind fun _ => steady_lookup hx ?_
  cases x with
  | int | bool | null => exact steady_pure _
  | var v => exact steady_read (hread v rfl)
  | unary op operand => exact (hself operand (by simp [Expr.operands])).bind fun _ => steady_pure _
  | binary op lhs rhs =>
    exact (hself lhs (by simp [Expr.operands])).bind fun a =>
      (hself rhs (by simp [Expr.operands])).bind fun b => steady_orDivision (op.eval a b)
  | assign | compound | increment => cases hpure
  | call method receiver args =>
    cases receiver with
    | some receiver => exact steady_throw _
    | none =>
      obtain ⟨decl, hdecl, hdeclPure⟩ := exists_pure_of_isImpureAlone hx hpure
      refine (steady_mapM fun o ho => hself o ho).bind fun values => steady_lookup hdecl ?_
      rw [if_pos hdeclPure]
      exact steady_pure _
  | field | newObject | newArray => exact steady_throw _

/-- Evaluating an expression goes alike in two states, however deep it may go, if nothing inside the
    expression has side effects and the states agree on the variables that are named there. -/
theorem unroll_steady (hl : Spans p es l)
    (hpure : ∀ o ∈ l, ∀ y, p.exprs.get? o = some y → p.isImpureAlone o y = .ok false)
    (hread : ∀ o ∈ l, ∀ y v, p.exprs.get? o = some y → y.namedVar = some v → t.read v = s.read v)
    (depth : Nat) (he : e ∈ l) :
    (unroll (throw .outOfFuel) p.evalExprStep depth e).Steady s t := by
  induction depth generalizing e with
  | zero => exact steady_throw .outOfFuel
  | succ depth ih =>
    obtain ⟨x, hx⟩ := hl.exists_get he
    rw [unroll_succ]
    exact evalExprStep_steady hx (hpure e he x hx) (fun v hv => hread e he x v hx hv) fun o ho =>
      ih (hl.mem_of_mem_operands he hx ho)

end Program

/-- Where the declared oracle finds no side effects in an expression, evaluating it leaves the state
    as it is. In another state with the same fuel that agrees on the variables to which the
    expression refers, whatever was recorded before, there is the same result, if there is one, and
    as much fuel is left. -/
theorem Oracle.declared_sound {p : Program} {e : ExprId}
    (h : Oracle.declared.mayHaveEffects p e = .ok false) (m n : Machine) (hfuel : n.fuel = m.fuel)
    (hagree : ∀ v, p.references e v = .ok true → (n.env.find? v).getD 0 = (m.env.find? v).getD 0) :
    ∃ result left, left ≤ m.fuel ∧
      (p.evalExpr e).run.run m = .ok (result, { m with fuel := left }) ∧
      (p.evalExpr e).run.run n = .ok (result, { n with fuel := left }) := by
  obtain ⟨entries, hentries, h⟩ := Run.bind_eq_ok.1 h
  obtain ⟨impure, himpure, h⟩ := Run.bind_eq_ok.1 h
  have halone := Program.isImpureAlone_of_mapM himpure (Except.ok.inj h)
  obtain ⟨l, hl, rfl⟩ := Program.exists_spans_of_subexprs hentries
  have hread : ∀ o ∈ l, ∀ y v, p.exprs.get? o = some y → y.namedVar = some v →
      n.memory.read v = m.memory.read v := by
    intro o ho y v hy hv
    refine hagree v ?_
    rw [Program.references, hentries]
    refine congrArg Except.ok (List.any_eq_true.2 ⟨(o, y), Program.mem_entriesOf.2 ⟨ho, hy⟩, ?_⟩)
    exact beq_iff_eq.2 hv
  have hsteady := Program.unroll_steady (s := m.memory) (t := n.memory) hl
    (fun o ho y hy => halone (o, y) (Program.mem_entriesOf.2 ⟨ho, hy⟩)) hread (m.fuel + 1)
    (hl.mem_of_mem_roots (List.mem_singleton_self e))
  obtain ⟨result, left, hleft, hm, hn⟩ := hsteady m.fuel
  refine ⟨result, left, hleft, hm, ?_⟩
  rw [← hfuel] at hn
  exact hn

/-- The product of a number and of what a pure method makes of a variable. -/
def sampleProduct : Program where
  vars := ⟨#[{ name := "a", type := .int, kind := .ofMethod },
    { name := "b", type := .int, kind := .ofMethod }]⟩
  methods := ⟨#[{ name := "mix", returns := .int, params := [], isPure := true, body := none }]⟩
  exprs := ⟨#[.var ⟨0⟩, .call ⟨0⟩ none [⟨0⟩], .int 2, .binary .mul ⟨1⟩ ⟨2⟩]⟩

/-- Two states with the same value of the one variable: the product is found in both. -/
theorem Oracle.declared_sound_product :
    let m : Machine := { env := HandleMap.insert (HandleMap.insert {} ⟨0⟩ 5) ⟨1⟩ 1, fuel := 9 }
    let n : Machine := { env := HandleMap.insert {} ⟨0⟩ 5, effects := #[4], fuel := 9 }
    Oracle.declared.mayHaveEffects sampleProduct ⟨3⟩ = .ok false ∧
    (∀ v, sampleProduct.references ⟨3⟩ v = .ok true →
      (n.env.find? v).getD 0 = (m.env.find? v).getD 0) ∧
    ∃ left, (sampleProduct.evalExpr ⟨3⟩).run.run m = .ok (.ok 324, { m with fuel := left }) ∧
      (sampleProduct.evalExpr ⟨3⟩).run.run n = .ok (.ok 324, { n with fuel := left }) := by
  intro m n
  have hagree : ∀ v, sampleProduct.references ⟨3⟩ v = .ok true →
      (n.env.find? v).getD 0 = (m.env.find? v).getD 0 := by
    intro v hv
    obtain rfl : ⟨0⟩ = v := by
      simpa [sampleProduct, Expr.namedVar] using Except.ok.inj hv
    decide
  have hpure : Oracle.declared.mayHaveEffects sampleProduct ⟨3⟩ = .ok false := by decide
  obtain ⟨result, left, _, hm, hn⟩ := Oracle.declared_sound hpure m n rfl hagree
  have hresult : ((sampleProduct.evalExpr ⟨3⟩).run.run m).map Prod.fst = .ok (.ok 324) := by decide
  rw [hm] at hresult
  obtain rfl : result = .ok 324 := Except.ok.inj hresult
  exact ⟨hpure, hagree, left, hm, hn⟩

end Dataflow
