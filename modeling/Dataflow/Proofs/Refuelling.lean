import Dataflow.Proofs.Evaluation

/-!
# Runs with more fuel

With more fuel the evaluator does the same and leaves so much more. It may go further down and round
loops more often, but where it came to an end before, it does not. So a run takes one amount of fuel,
however much there is, and no run that comes to an end was begun with less.

* `Eval.Outlasts`: what one part of a run does, another one does with more fuel;
* `Program.evalExpr_outlasts`, `Program.evalStmt_outlasts`: both evaluators;
* `Task.Costs.le_of_gives`: a run that comes to an end had the fuel that it takes.
-/

namespace Dataflow

/-- A machine with more fuel. -/
def Machine.refuel (m : Machine) (more : Nat) : Machine := m.memory.withFuel (m.fuel + more)

@[simp] theorem Machine.fuel_refuel (m : Machine) (more : Nat) :
    (m.refuel more).fuel = m.fuel + more := rfl

/-! ### Parts of runs -/

namespace Eval

variable {α β : Type} {x y : Eval α} {f g : α → Eval β} {more : Nat}

/-- Whatever `x` gives, `y` gives with more fuel, all of which it leaves. -/
def Outlasts (more : Nat) (x y : Eval α) : Prop :=
  ∀ m a m', x.Gives m a m' → y.Gives (m.refuel more) a (m'.refuel more)

theorem outlasts_pure (a : α) : Outlasts more (pure a) (pure a) := by
  intro m b m' h
  obtain ⟨rfl, rfl⟩ := gives_pure.1 h
  exact gives_pure.2 ⟨rfl, rfl⟩

theorem outlasts_throw (halt : Halt) : Outlasts more (throw halt) y := fun _ _ _ h =>
  absurd h not_gives_throw

theorem Outlasts.bind (hx : Outlasts more x y) (hf : ∀ a, Outlasts more (f a) (g a)) :
    Outlasts more (x >>= f) (y >>= g) := by
  intro m b m' h
  obtain ⟨a, mid, ha, hb⟩ := gives_bind.1 h
  exact gives_bind.2 ⟨a, _, hx m a mid ha, hf a mid b m' hb⟩

theorem outlasts_spend : Outlasts more spend spend := by
  intro m u m' h
  obtain ⟨fuel, hfuel, rfl⟩ := gives_spend.1 h
  refine gives_spend.2 ⟨fuel + more, ?_, rfl⟩
  rw [Machine.fuel_refuel, hfuel, Nat.succ_add]

theorem outlasts_write (v : VarId) (a : Int64) : Outlasts more (write v a) (write v a) := by
  intro m u m' h
  obtain rfl := gives_write.1 h
  exact gives_write.2 rfl

theorem outlasts_lookup {name : String} (a : Arena name α) (h : Handle name) :
    Outlasts more (liftM (a.get h)) (liftM (a.get h)) := by
  intro m b m' hb
  obtain ⟨hget, rfl⟩ := gives_lookup.1 hb
  exact gives_lookup.2 ⟨hget, rfl⟩

theorem outlasts_mapM {as : List α} (h : ∀ a, Outlasts more (f a) (g a)) :
    Outlasts more (as.mapM f) (as.mapM g) := by
  induction as with
  | nil =>
    rw [List.mapM_nil, List.mapM_nil]
    exact outlasts_pure []
  | cons a as ih =>
    rw [List.mapM_cons, List.mapM_cons]
    exact (h a).bind fun _ => ih.bind fun _ => outlasts_pure _

theorem outlasts_sequence {self self' : StmtId → Eval Completion}
    (h : ∀ s, Outlasts more (self s) (self' s)) (ss : List StmtId) :
    Outlasts more (sequence self ss) (sequence self' ss) := by
  induction ss with
  | nil => exact outlasts_pure _
  | cons s ss ih =>
    refine (h s).bind fun c => ?_
    cases c with
    | normal => exact ih
    | returned value => exact outlasts_pure _

theorem outlasts_loop {condition : Eval Int64} {body body' : Eval Completion}
    (hcondition : Outlasts more condition condition) (hbody : Outlasts more body body')
    {rounds rounds' : Nat} (hle : rounds ≤ rounds') :
    Outlasts more (loop condition body rounds) (loop condition body' rounds') := by
  induction rounds generalizing rounds' with
  | zero => exact outlasts_throw _
  | succ rounds ih =>
    obtain ⟨rounds', rfl⟩ := Nat.exists_eq_add_of_le' (Nat.le_of_add_left_le hle)
    refine hcondition.bind fun a => ?_
    split
    · exact outlasts_pure _
    · refine hbody.bind fun c => ?_
      cases c with
      | normal => exact ih (Nat.le_of_succ_le_succ hle)
      | returned value => exact outlasts_pure _

end Eval

/-! ### Expressions and statements -/

namespace Program

open Eval

variable {p : Program} {more : Nat}

theorem evalExprStep_outlasts {self self' : ExprId → Eval Int64}
    (h : ∀ e, Outlasts more (self e) (self' e)) (e : ExprId) :
    Outlasts more (p.evalExprStep self e) (p.evalExprStep self' e) := by
  intro m a m' hgives
  obtain ⟨fuel, x, ins, values, mid, own, hfuel, hx, hacted⟩ := exists_acted hgives
  have hacted' : p.Acted self' e x ((m.refuel more).memory.withFuel (fuel + more)) ins values
      (mid.refuel more) own a (m'.refuel more) :=
    ⟨hacted.evaluated, outlasts_mapM h _ _ _ hacted.operands, hacted.act,
      congrArg (· + more) hacted.fuel⟩
  refine hacted'.gives hx ?_
  rw [Machine.fuel_refuel, hfuel, Nat.succ_add]

theorem unroll_evalExprStep_outlasts {depth depth' : Nat} (hle : depth ≤ depth') (e : ExprId) :
    Outlasts more (unroll (throw .outOfFuel) p.evalExprStep depth e)
      (unroll (throw .outOfFuel) p.evalExprStep depth' e) := by
  induction depth generalizing depth' e with
  | zero => exact outlasts_throw _
  | succ depth ih =>
    obtain ⟨depth', rfl⟩ := Nat.exists_eq_add_of_le' (Nat.le_of_add_left_le hle)
    exact evalExprStep_outlasts (ih (Nat.le_of_succ_le_succ hle)) e

theorem evalExpr_outlasts (e : ExprId) : Outlasts more (p.evalExpr e) (p.evalExpr e) :=
  fun m => unroll_evalExprStep_outlasts (Nat.succ_le_succ (Nat.le_add_right m.fuel more)) e m

theorem evalStmtStep_outlasts {self self' : StmtId → Eval Completion}
    (h : ∀ s, Outlasts more (self s) (self' s)) (s : StmtId) :
    Outlasts more (p.evalStmtStep self s) (p.evalStmtStep self' s) := by
  refine outlasts_spend.bind fun _ => (outlasts_lookup p.stmts s).bind fun st => ?_
  cases st with
  | block ss => exact outlasts_sequence h ss
  | declare v init =>
    cases init with
    | none => exact outlasts_pure _
    | some e =>
      exact (evalExpr_outlasts e).bind fun a => (outlasts_write v a).bind fun _ => outlasts_pure _
  | expr e => exact (evalExpr_outlasts e).bind fun _ => outlasts_pure _
  | branch e t o =>
    refine (evalExpr_outlasts e).bind fun a => ?_
    split
    · exact h t
    · cases o with
      | none => exact outlasts_pure _
      | some t' => exact h t'
  | loop e b =>
    exact fun m => outlasts_loop (evalExpr_outlasts e) (h b)
      (Nat.succ_le_succ (Nat.le_add_right m.fuel more)) m
  | ret value =>
    cases value with
    | none => exact outlasts_pure _
    | some e => exact (evalExpr_outlasts e).bind fun _ => outlasts_pure _

theorem unroll_evalStmtStep_outlasts {depth depth' : Nat} (hle : depth ≤ depth') (s : StmtId) :
    Outlasts more (unroll (throw .outOfFuel) p.evalStmtStep depth s)
      (unroll (throw .outOfFuel) p.evalStmtStep depth' s) := by
  induction depth generalizing depth' s with
  | zero => exact outlasts_throw _
  | succ depth ih =>
    obtain ⟨depth', rfl⟩ := Nat.exists_eq_add_of_le' (Nat.le_of_add_left_le hle)
    exact evalStmtStep_outlasts (ih (Nat.le_of_succ_le_succ hle)) s

theorem evalStmt_outlasts (s : StmtId) : Outlasts more (p.evalStmt s) (p.evalStmt s) :=
  fun m => unroll_evalStmtStep_outlasts (Nat.succ_le_succ (Nat.le_add_right m.fuel more)) s m

end Program

/-- A statement that comes to its end had the fuel that it takes. -/
theorem Task.Costs.le_of_gives {p : Program} {s : StmtId} {n n' : Memory} {c d : Completion}
    {cost fuel : Nat} {m' : Machine} (h : (Task.stmt s).Costs p n c n' cost)
    (hgives : (p.evalStmt s).Gives (n.withFuel fuel) d m') : cost ≤ fuel := by
  -- With so much more fuel both are known: what the run leaves, and that it leaves all of it.
  have hcost : (p.evalStmt s).Gives (n.withFuel (fuel + cost)) c (n'.withFuel (fuel + cost - cost)) :=
    h (fuel + cost) (fuel + cost + 1) cost (by omega) (by omega) (Nat.le_refl _)
  have hmore : (p.evalStmt s).Gives (n.withFuel (fuel + cost)) d (m'.refuel cost) :=
    Program.evalStmt_outlasts s _ _ _ hgives
  have hleft := congrArg (Machine.fuel ∘ Prod.snd) (Except.ok.inj (hcost.symm.trans hmore))
  have : fuel + cost - cost = m'.fuel + cost := hleft
  omega

end Dataflow
