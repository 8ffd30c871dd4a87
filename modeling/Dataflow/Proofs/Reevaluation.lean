import Dataflow.Proofs.Copies
import Dataflow.Proofs.EditedOperations
import Dataflow.Proofs.Simulation

/-!
# Evaluating a value again

The evaluator leaves the state alone when it evaluates an inert expression. The value it finds is
found again after a variable is written that the expression does not name, and a copy of the
expression has it too.

* `Program.outcome`: what an expression does to the state, its events aside;
* `Computes.congr`, `Runs.congr`: evaluation depends on what is inside expressions and statements;
* `Computes.eq_of_inert`, `Computes.write_of_inert`: evaluating inert expressions;
* `Copies.exists_computes`: evaluating copies of them.
-/

namespace Dataflow

variable {p q : Program} {es l cs l' roots : List ExprId} {e c : ExprId} {x : Expr} {s s' mid : Memory}
  {events : List Event} {values : List Int64} {a : Int64} {v : VarId}

theorem Memory.read_write (s : Memory) (v u : VarId) (a : Int64) :
    (s.write v a).read u = if v = u then a else s.read u := by
  rw [read, write, HandleMap.find?_insert]
  split <;> rfl

theorem Memory.read_write_self (s : Memory) (v : VarId) (a : Int64) : (s.write v a).read v = a :=
  (s.read_write v v a).trans (if_pos rfl)

/-! ### What an expression does to the state -/

/-- The value of an expression and the state it leaves, its operands being evaluated. -/
def Program.outcome (p : Program) (e : ExprId) (s : Memory) (values : List Int64) (mid : Memory)
    (x : Expr) : Option (Int64 × Memory) :=
  (p.act e s values mid x).map fun t => (t.1, t.2.1)

theorem Program.outcome_eq_some : p.outcome e s values mid x = some (a, s') ↔
    ∃ own, p.act e s values mid x = some (a, s', own) := by
  rw [outcome, Option.map_eq_some_iff]
  constructor
  · rintro ⟨⟨_, _, own⟩, hact, heq⟩
    cases heq
    exact ⟨own, hact⟩
  · rintro ⟨own, hact⟩
    exact ⟨_, hact, rfl⟩

/-- Other operands do not change what an expression does, if they have the same values and it
    assigns to the same variables. -/
theorem Program.outcome_withOperands {os : List ExprId} (hlen : os.length = x.operands.length)
    (hmethods : q.methods = p.methods)
    (htargets : (x.withOperands os).targets.map q.targetVar = x.targets.map p.targetVar) :
    q.outcome c s values mid (x.withOperands os) = p.outcome e s values mid x := by
  cases x with
  | int | bool | null | var | newObject => rfl
  | field | unary | newArray =>
    obtain ⟨o, rfl⟩ := List.length_eq_one_iff.1 hlen
    rw [outcome, outcome, Expr.withOperands]
    simp [act]
  | binary =>
    obtain ⟨o, o', rfl⟩ := List.length_eq_two.1 hlen
    rw [outcome, outcome, Expr.withOperands]
    rfl
  | assign t y | compound op t y =>
    obtain ⟨o, o', rfl⟩ := List.length_eq_two.1 hlen
    have hvar : q.targetVar o = p.targetVar t := List.singleton_inj.1 htargets
    rw [outcome, outcome, Expr.withOperands, act, act, hvar]
    simp [Option.map_bind]
  | increment op t =>
    obtain ⟨o, rfl⟩ := List.length_eq_one_iff.1 hlen
    have hvar : q.targetVar o = p.targetVar t := List.singleton_inj.1 htargets
    rw [outcome, outcome, Expr.withOperands, act, act, hvar]
    simp [Option.map_bind]
  | call method receiver args =>
    have hcall : ∀ receiver' args', q.outcome c s values mid (.call method receiver' args') =
        p.outcome e s values mid (.call method receiver args) := by
      intro receiver' args'
      rw [outcome, outcome, act, act, hmethods]
      cases p.methods.get? method with
      | none => rfl
      | some decl => cases hpure : decl.isPure <;> simp [hpure]
    cases receiver with
    | none => exact hcall _ _
    | some receiver =>
      cases os with
      | nil => cases hlen
      | cons o os => exact hcall _ _

theorem Program.act_congr (hmethods : q.methods = p.methods)
    (htargets : ∀ t ∈ x.targets, q.targetVar t = p.targetVar t) :
    q.act e s values mid x = p.act e s values mid x := by
  cases x with
  | assign t | compound _ t | increment _ t =>
    rw [act, act, htargets t (List.mem_singleton_self t)]
  | call => rw [act, act, hmethods]
  | _ => rfl

/-- Evaluation depends on what is inside the expressions, and on the methods. -/
theorem Computes.congr (h : Computes p es s events values s') (hl : Spans p roots l)
    (hes : ∀ e ∈ es, e ∈ l) (hsame : ∀ e ∈ l, q.exprs.get? e = p.exprs.get? e)
    (hmethods : q.methods = p.methods) : Computes q es s events values s' := by
  induction h with
  | nil => exact .nil
  | @cons e x ins es _ _ _ _ _ _ _ _ _ _ hx hins _ hact _ ih₁ ih₂ =>
    rw [List.forall_mem_cons] at hes
    have hoperands : ∀ o ∈ x.operands, o ∈ l := fun o ho => hl.mem_of_mem_operands hes.1 hx ho
    refine .cons ((hsame e hes.1).trans hx) hins
      (ih₁ fun o ho => hoperands o (Expr.evaluated_subset hins o ho)) ?_ (ih₂ hes.2)
    refine (Program.act_congr hmethods fun t ht => ?_).trans hact
    rw [Program.targetVar, hsame t (hoperands t (Expr.mem_operands_of_mem_targets ht))]
    rfl

/-- All that a task consists of is listed. -/
def Task.Within (ls : List StmtId) (le : List ExprId) : Task → Prop
  | stmt s => s ∈ ls
  | seq ss => ∀ s ∈ ss, s ∈ ls
  | loop _ e b => e ∈ le ∧ b ∈ ls

/-- A run depends on what is inside the statements, and on the methods. -/
theorem Runs.congr {ss ls : List StmtId} {le : List ExprId} {task : Task} {c : Completion}
    (h : Runs p task s events c s') (hl : StmtSpans p ss ls le)
    (hstmts : ∀ t ∈ ls, q.stmts.get? t = p.stmts.get? t)
    (hexprs : ∀ e ∈ le, q.exprs.get? e = p.exprs.get? e) (hmethods : q.methods = p.methods)
    (htask : task.Within ls le) : Runs q task s events c s' := by
  have hone {e : ExprId} {m m' : Memory} {events : List Event} {values : List Int64} (he : e ∈ le)
      (hcomp : Computes p [e] m events values m') : Computes q [e] m events values m' := by
    obtain ⟨l, hspans, hsub⟩ := hl.exists_spans he
    exact hcomp.congr hspans (fun _ => hspans.mem_of_mem_roots)
      (fun o ho => hexprs o (hsub.subset ho)) hmethods
  induction h with
  | block hs _ ih =>
    exact .block ((hstmts _ htask).trans hs) (ih fun _ => hl.mem_of_mem_children htask hs)
  | declare hs => exact .declare ((hstmts _ htask).trans hs)
  | init hs he =>
    have hmem := hl.mem_of_mem_exprs htask hs List.mem_cons_self
    exact .init ((hstmts _ htask).trans hs) (hone hmem he)
  | expr hs he =>
    have hmem := hl.mem_of_mem_exprs htask hs List.mem_cons_self
    exact .expr ((hstmts _ htask).trans hs) (hone hmem he)
  | thenBranch hs he hne _ ih =>
    have hmem := hl.mem_of_mem_exprs htask hs List.mem_cons_self
    exact .thenBranch ((hstmts _ htask).trans hs) (hone hmem he) hne
      (ih (hl.mem_of_mem_children htask hs List.mem_cons_self))
  | elseBranch hs he _ ih =>
    have hmem := hl.mem_of_mem_exprs htask hs List.mem_cons_self
    exact .elseBranch ((hstmts _ htask).trans hs) (hone hmem he)
      (ih fun _ ht => hl.mem_of_mem_children htask hs (List.mem_cons_of_mem _ ht))
  | loop hs _ ih =>
    exact .loop ((hstmts _ htask).trans hs) (ih ⟨hl.mem_of_mem_exprs htask hs List.mem_cons_self,
      hl.mem_of_mem_children htask hs List.mem_cons_self⟩)
  | @ret t value _ _ _ _ hs he =>
    cases value with
    | none =>
      cases he
      exact .ret ((hstmts _ htask).trans hs) .nil
    | some e =>
      exact .ret ((hstmts _ htask).trans hs)
        (hone (hl.mem_of_mem_exprs htask hs List.mem_cons_self) he)
  | nil => exact .nil
  | next _ _ ih₁ ih₂ =>
    obtain ⟨hfirst, hrest⟩ := List.forall_mem_cons.1 htask
    exact .next (ih₁ hfirst) (ih₂ hrest)
  | stop _ ih => exact .stop (ih (List.forall_mem_cons.1 htask).1)
  | exit he => exact .exit (hone htask.1 he)
  | again he hne _ _ ih₁ ih₂ => exact .again (hone htask.1 he) hne (ih₁ htask.2) (ih₂ htask)
  | leave he hne _ ih => exact .leave (hone htask.1 he) hne (ih htask.2)

/-! ### Inert expressions -/

/-- An expression without side effects leaves the state alone, and a variable that it does not
    name may be written before. -/
theorem Program.act_of_inert {own : List Event} (himpure : p.impureHead x = false)
    (h : p.act e s values mid x = some (a, s', own)) : s' = mid ∧
      ∀ v, x.namedVar ≠ some v → ∀ b,
        p.act e (s.write v b) values (mid.write v b) x = some (a, mid.write v b, own) := by
  cases x with
  | assign | compound | increment | newObject => cases himpure
  | field | newArray => cases h
  | int | bool | null =>
    cases h
    exact ⟨rfl, fun _ _ _ => rfl⟩
  | var u =>
    cases h
    refine ⟨rfl, fun v hv b => ?_⟩
    rw [act, Memory.read_write, if_neg fun huv => hv (congrArg some huv.symm)]
  | unary op o =>
    obtain ⟨b, hb, heq⟩ := Option.map_eq_some_iff.1 h
    cases heq
    exact ⟨rfl, fun _ _ _ => Option.map_eq_some_iff.2 ⟨b, hb, rfl⟩⟩
  | binary op lhs rhs =>
    simp only [act, Option.bind_eq_bind, Option.bind_eq_some_iff] at h
    obtain ⟨b, hb, d, hd, z, hz, heq⟩ := h
    cases heq
    refine ⟨rfl, fun _ _ _ => ?_⟩
    simp only [act, Option.bind_eq_bind, Option.bind_eq_some_iff]
    exact ⟨b, hb, d, hd, a, hz, rfl⟩
  | call method receiver args =>
    simp only [act, Option.bind_eq_bind, Option.bind_eq_some_iff] at h
    obtain ⟨decl, hdecl, h⟩ := h
    have hpure : decl.isPure = true := by
      rw [impureHead, hdecl] at himpure
      simpa using himpure
    rw [if_pos hpure] at h
    cases h
    refine ⟨rfl, fun _ _ _ => ?_⟩
    simp only [act, Option.bind_eq_bind, Option.bind_eq_some_iff]
    exact ⟨decl, hdecl, by rw [if_pos hpure]; rfl⟩

section Inert

variable (h : Computes p es s events values s') (hl : Spans p roots l) (hes : ∀ e ∈ es, e ∈ l)
  (hinert : p.Inert l)
include h hl hes hinert

/-- Inert expressions leave the state alone. -/
theorem Computes.eq_of_inert : s' = s := by
  induction h with
  | nil => rfl
  | cons hx hins _ hact _ ih₁ ih₂ =>
    rw [List.forall_mem_cons] at hes
    have hmid := ih₁ fun o ho =>
      hl.mem_of_mem_operands hes.1 hx (Expr.evaluated_subset hins o ho)
    rw [ih₂ hes.2, (Program.act_of_inert (hinert _ hes.1 _ hx).1 hact).1, hmid]

/-- Inert expressions have the same values after a variable is written that they do not name. -/
theorem Computes.write_of_inert (havoids : p.Avoids l v) (b : Int64) :
    Computes p es (s.write v b) events values (s'.write v b) := by
  induction h with
  | nil => exact .nil
  | cons hx hins _ hact _ ih₁ ih₂ =>
    rw [List.forall_mem_cons] at hes
    obtain ⟨rfl, hact'⟩ := Program.act_of_inert (hinert _ hes.1 _ hx).1 hact
    refine .cons hx hins (ih₁ fun o ho =>
      hl.mem_of_mem_operands hes.1 hx (Expr.evaluated_subset hins o ho)) ?_ (ih₂ hes.2)
    exact hact' v (havoids _ hes.1 _ hx) b

end Inert

/-! ### Copies -/

theorem Expr.targets_of_inert (himpure : p.impureHead x = false) : x.targets = [] := by
  cases x with
  | assign | compound | increment => cases himpure
  | _ => rfl

/-- An expression without side effects evaluates all its operands, if it has a meaning, and one
    with other operands evaluates those. -/
theorem Expr.evaluated_of_inert {ins os : List ExprId} (himpure : p.impureHead x = false)
    (h : x.evaluated = some ins) (hlen : os.length = x.operands.length) :
    ins = x.operands ∧ (x.withOperands os).evaluated = some os := by
  cases x with
  | assign | compound | increment | newObject => cases himpure
  | field | newArray => cases h
  | int | bool | null | var =>
    cases h
    cases List.length_eq_zero_iff.1 hlen
    exact ⟨rfl, rfl⟩
  | unary =>
    cases h
    obtain ⟨o, rfl⟩ := List.length_eq_one_iff.1 hlen
    exact ⟨rfl, rfl⟩
  | binary =>
    cases h
    obtain ⟨o, o', rfl⟩ := List.length_eq_two.1 hlen
    exact ⟨rfl, rfl⟩
  | call method receiver args =>
    cases receiver with
    | some receiver => cases h
    | none =>
      cases h
      exact ⟨rfl, rfl⟩

/-- Copies of inert expressions have the same values. -/
theorem Copies.exists_computes (h : Copies p q es l cs l') (hinert : p.Inert l)
    (hmethods : q.methods = p.methods) (hcomp : Computes p es s events values s') :
    ∃ events', Computes q cs s events' values s' := by
  induction h generalizing s events values s' with
  | nil =>
    cases hcomp
    exact ⟨[], .nil⟩
  | @cons e c x os es inner rest cs inner' rest' he hc hlen _ _ ih₁ ih₂ =>
    rw [Program.Inert, List.forall_mem_cons, List.forall_mem_append] at hinert
    obtain ⟨hself, hinner, hrest⟩ := hinert
    have himpure := (hself x he).1
    cases hcomp with
    | cons hx hins hvalues hact hafter =>
      cases he.symm.trans hx
      obtain ⟨rfl, hos⟩ := Expr.evaluated_of_inert himpure hins hlen
      obtain ⟨before, hbefore⟩ := ih₁ hinner hvalues
      obtain ⟨after, hafter⟩ := ih₂ hrest hafter
      have htargets : (x.withOperands os).targets.map q.targetVar = x.targets.map p.targetVar := by
        rw [Expr.targets_of_inert himpure, Expr.targets_of_inert (p := p)
          (by rw [Expr.impureHead_withOperands]; exact himpure)]
        rfl
      obtain ⟨own, hown⟩ := Program.outcome_eq_some.1
        ((Program.outcome_withOperands hlen hmethods htargets).trans
          (Program.outcome_eq_some.2 ⟨_, hact⟩))
      exact ⟨_, .cons hc hos hbefore hown hafter⟩

end Dataflow
