import Dataflow.Proofs.Preservation
import Dataflow.Proofs.Refuelling

/-!
# Fuel decides whether, not what

A run of a method that comes to its end takes one amount of fuel. With that much or more it gives
the same outcome, and with less it is given up: it goes the same way as long as the fuel lasts, so
it meets no handle that the longer run does not meet.

* `Eval.Abridges`: what one part of a run does, another one does with less fuel, as far as it lasts;
* `Program.evalExpr_abridges`, `Program.evalStmt_abridges`: both evaluators;
* `Program.evaluate_eq_ite`: a method has one outcome, and an amount of fuel from which on it is
  given.
-/

namespace Dataflow

/-! ### Parts of runs -/

namespace Eval

variable {α β : Type} {x y : Eval α} {f g : α → Eval β} {more : Nat}

/-- A part of a run ends because there is no fuel left. -/
def RunsOut (x : Eval α) (m : Machine) : Prop := ∃ m', x.run.run m = .ok (.error .outOfFuel, m')

theorem RunsOut.bind {m : Machine} (h : x.RunsOut m) : (x >>= f).RunsOut m := by
  obtain ⟨m', hx⟩ := h
  exact ⟨m', Run.bind_eq_ok.2 ⟨_, hx, rfl⟩⟩

theorem Gives.bind_runsOut {m mid : Machine} {a : α} (h : x.Gives m a mid)
    (hf : (f a).RunsOut mid) : (x >>= f).RunsOut m := by
  obtain ⟨m', hfa⟩ := hf
  exact ⟨m', Run.bind_eq_ok.2 ⟨_, h, hfa⟩⟩

/-- Whatever `x` gives with more fuel, `y` gives, leaving so much less, or runs out of fuel. -/
def Abridges (more : Nat) (y x : Eval α) : Prop :=
  ∀ m a m', x.Gives (m.refuel more) a m' →
    (∃ left, y.Gives m a left ∧ m' = left.refuel more) ∨ y.RunsOut m

theorem abridges_outOfFuel : Abridges more (throw .outOfFuel) x := fun m _ _ _ => .inr ⟨m, rfl⟩

theorem abridges_throw (halt : Halt) : Abridges more y (throw halt) := fun _ _ _ h =>
  absurd h not_gives_throw

theorem Abridges.bind (hx : Abridges more y x) (hf : ∀ a, Abridges more (g a) (f a)) :
    Abridges more (y >>= g) (x >>= f) := by
  intro m b m' h
  obtain ⟨a, mid, ha, hb⟩ := gives_bind.1 h
  rcases hx m a mid ha with ⟨left, hy, rfl⟩ | hout
  · rcases hf a left b m' hb with ⟨left', hg, rfl⟩ | hout
    · exact .inl ⟨left', gives_bind.2 ⟨a, left, hy, hg⟩, rfl⟩
    · exact .inr (hy.bind_runsOut hout)
  · exact .inr hout.bind

theorem abridges_spend : Abridges more spend spend := by
  intro m u m' h
  obtain ⟨fuel, hfuel, rfl⟩ := gives_spend.1 h
  rw [Machine.fuel_refuel] at hfuel
  cases hm : m.fuel with
  | zero =>
    refine .inr ⟨m, ?_⟩
    obtain ⟨env, effects, _⟩ := m
    cases hm
    rfl
  | succ left =>
    obtain rfl : fuel = left + more := by omega
    exact .inl ⟨_, gives_spend.2 ⟨left, hm, rfl⟩, rfl⟩

/-! Parts that look at no fuel do the same with less of it. -/

theorem abridges_pure (a : α) : Abridges more (pure a) (pure a) := by
  intro m b m' h
  obtain ⟨rfl, rfl⟩ := gives_pure.1 h
  exact .inl ⟨m, gives_pure.2 ⟨rfl, rfl⟩, rfl⟩

theorem abridges_lookup {name : String} (a : Arena name α) (h : Handle name) :
    Abridges more (liftM (a.get h)) (liftM (a.get h)) := by
  intro m b m' hb
  obtain ⟨hget, rfl⟩ := gives_lookup.1 hb
  exact .inl ⟨m, gives_lookup.2 ⟨hget, rfl⟩, rfl⟩

theorem abridges_read (v : VarId) : Abridges more (read v) (read v) := by
  intro m a m' h
  obtain ⟨rfl, rfl⟩ := gives_read.1 h
  exact .inl ⟨m, gives_read.2 ⟨rfl, rfl⟩, rfl⟩

theorem abridges_write (v : VarId) (a : Int64) : Abridges more (write v a) (write v a) := by
  intro m u m' h
  obtain rfl := gives_write.1 h
  exact .inl ⟨_, gives_write.2 rfl, rfl⟩

theorem abridges_record (sum : Int64) : Abridges more (record sum) (record sum) := by
  intro m a m' h
  obtain ⟨rfl, rfl⟩ := gives_record.1 h
  exact .inl ⟨_, gives_record.2 ⟨rfl, rfl⟩, rfl⟩

theorem abridges_orDivision (o : Option Int64) : Abridges more (orDivision o) (orDivision o) := by
  cases o with
  | none => exact abridges_throw _
  | some a => exact abridges_pure a

/-! Lists and loops. -/

theorem abridges_mapM {as : List α} (h : ∀ a, Abridges more (g a) (f a)) :
    Abridges more (as.mapM g) (as.mapM f) := by
  induction as with
  | nil =>
    rw [List.mapM_nil, List.mapM_nil]
    exact abridges_pure []
  | cons a as ih =>
    rw [List.mapM_cons, List.mapM_cons]
    exact (h a).bind fun _ => ih.bind fun _ => abridges_pure _

theorem abridges_sequence {self self' : StmtId → Eval Completion}
    (h : ∀ s, Abridges more (self' s) (self s)) (ss : List StmtId) :
    Abridges more (sequence self' ss) (sequence self ss) := by
  induction ss with
  | nil => exact abridges_pure _
  | cons s ss ih =>
    refine (h s).bind fun c => ?_
    cases c with
    | normal => exact ih
    | returned value => exact abridges_pure _

theorem abridges_loop {condition : Eval Int64} {body body' : Eval Completion}
    (hcondition : Abridges more condition condition) (hbody : Abridges more body' body)
    {rounds rounds' : Nat} (hle : rounds' ≤ rounds) :
    Abridges more (loop condition body' rounds') (loop condition body rounds) := by
  induction rounds' generalizing rounds with
  | zero => exact abridges_outOfFuel
  | succ rounds' ih =>
    obtain ⟨rounds, rfl⟩ := Nat.exists_eq_add_of_le' (Nat.le_of_add_left_le hle)
    refine hcondition.bind fun a => ?_
    split
    · exact abridges_pure _
    · refine hbody.bind fun c => ?_
      cases c with
      | normal => exact ih (Nat.le_of_succ_le_succ hle)
      | returned value => exact abridges_pure _

end Eval

/-! ### Expressions and statements -/

namespace Program

open Eval

variable {p : Program} {more : Nat}

theorem evalTarget_abridges (target : ExprId) :
    Abridges more (p.evalTarget target) (p.evalTarget target) := by
  refine (abridges_lookup p.exprs target).bind fun x => ?_
  cases x.namedVar with
  | none => exact abridges_throw _
  | some v => exact abridges_pure v

theorem evalExprStep_abridges {self self' : ExprId → Eval Int64}
    (h : ∀ e, Abridges more (self' e) (self e)) (e : ExprId) :
    Abridges more (p.evalExprStep self' e) (p.evalExprStep self e) := by
  refine abridges_spend.bind fun _ => (abridges_lookup p.exprs e).bind fun x => ?_
  cases x with
  | int | bool | null => exact abridges_pure _
  | var v => exact abridges_read v
  | unary op operand => exact (h operand).bind fun _ => abridges_pure _
  | binary op lhs rhs =>
    exact (h lhs).bind fun a => (h rhs).bind fun b => abridges_orDivision (op.eval a b)
  | assign target value =>
    exact (evalTarget_abridges target).bind fun v => (h value).bind fun a =>
      (abridges_write v a).bind fun _ => abridges_pure a
  | compound op target value =>
    exact (evalTarget_abridges target).bind fun v => (abridges_read v).bind fun old =>
      (h value).bind fun b => (abridges_orDivision (op.eval old b)).bind fun a =>
        (abridges_write v a).bind fun _ => abridges_pure a
  | increment op target =>
    exact (evalTarget_abridges target).bind fun v => (abridges_read v).bind fun old =>
      (abridges_write v (op.eval old)).bind fun _ => abridges_pure _
  | call method receiver args =>
    cases receiver with
    | some receiver => exact abridges_throw _
    | none =>
      refine (abridges_mapM h).bind fun values => ?_
      refine (abridges_lookup p.methods method).bind fun decl => ?_
      split
      · exact abridges_pure _
      · exact abridges_record _
  | field | newObject | newArray => exact abridges_throw _

theorem unroll_evalExprStep_abridges {depth depth' : Nat} (hle : depth' ≤ depth) (e : ExprId) :
    Abridges more (unroll (throw .outOfFuel) p.evalExprStep depth' e)
      (unroll (throw .outOfFuel) p.evalExprStep depth e) := by
  induction depth' generalizing depth e with
  | zero => exact abridges_outOfFuel
  | succ depth' ih =>
    obtain ⟨depth, rfl⟩ := Nat.exists_eq_add_of_le' (Nat.le_of_add_left_le hle)
    exact evalExprStep_abridges (ih (Nat.le_of_succ_le_succ hle)) e

/-- An expression does the same with less fuel, as far as it lasts. -/
theorem evalExpr_abridges (e : ExprId) : Abridges more (p.evalExpr e) (p.evalExpr e) :=
  fun m => unroll_evalExprStep_abridges (Nat.succ_le_succ (Nat.le_add_right m.fuel more)) e m

theorem evalStmtStep_abridges {self self' : StmtId → Eval Completion}
    (h : ∀ s, Abridges more (self' s) (self s)) (s : StmtId) :
    Abridges more (p.evalStmtStep self' s) (p.evalStmtStep self s) := by
  refine abridges_spend.bind fun _ => (abridges_lookup p.stmts s).bind fun st => ?_
  cases st with
  | block ss => exact abridges_sequence h ss
  | declare v init =>
    cases init with
    | none => exact abridges_pure _
    | some e =>
      exact (evalExpr_abridges e).bind fun a => (abridges_write v a).bind fun _ => abridges_pure _
  | expr e => exact (evalExpr_abridges e).bind fun _ => abridges_pure _
  | branch e t o =>
    refine (evalExpr_abridges e).bind fun a => ?_
    split
    · exact h t
    · cases o with
      | none => exact abridges_pure _
      | some t' => exact h t'
  | loop e b =>
    -- The rounds that a loop may take are read off the fuel, so there are fewer of them, too.
    exact fun m => abridges_loop (evalExpr_abridges e) (h b)
      (Nat.succ_le_succ (Nat.le_add_right m.fuel more)) m
  | ret value =>
    cases value with
    | none => exact abridges_pure _
    | some e => exact (evalExpr_abridges e).bind fun _ => abridges_pure _

theorem unroll_evalStmtStep_abridges {depth depth' : Nat} (hle : depth' ≤ depth) (s : StmtId) :
    Abridges more (unroll (throw .outOfFuel) p.evalStmtStep depth' s)
      (unroll (throw .outOfFuel) p.evalStmtStep depth s) := by
  induction depth' generalizing depth s with
  | zero => exact abridges_outOfFuel
  | succ depth' ih =>
    obtain ⟨depth, rfl⟩ := Nat.exists_eq_add_of_le' (Nat.le_of_add_left_le hle)
    exact evalStmtStep_abridges (ih (Nat.le_of_succ_le_succ hle)) s

/-- A statement does the same with less fuel, as far as it lasts. -/
theorem evalStmt_abridges (s : StmtId) : Abridges more (p.evalStmt s) (p.evalStmt s) :=
  fun m => unroll_evalStmtStep_abridges (Nat.succ_le_succ (Nat.le_add_right m.fuel more)) s m

/-! ### Methods -/

variable {m : MethodId} {args : List Int64} {fuel : Nat} {o : Outcome}

theorem evaluate_add (h : p.evaluate m args fuel = .ok (some o)) (more : Nat) :
    p.evaluate m args (fuel + more) = .ok (some o) := by
  obtain ⟨decl, body, d, m', hdecl, hbody, hrun, rfl⟩ := evaluate_eq_some_iff.1 h
  exact evaluate_eq_some_iff.2
    ⟨decl, body, d, m'.refuel more, hdecl, hbody, evalStmt_outlasts body _ _ _ hrun, rfl⟩

/-- With less fuel a method has the same outcome, or it is given up. -/
theorem evaluate_of_add {more : Nat} (h : p.evaluate m args (fuel + more) = .ok (some o)) :
    p.evaluate m args fuel = .ok (some o) ∨ p.evaluate m args fuel = .ok none := by
  obtain ⟨decl, body, d, m', hdecl, hbody, hrun, rfl⟩ := evaluate_eq_some_iff.1 h
  rcases evalStmt_abridges body ((decl.start args).withFuel fuel) d m' hrun with
    ⟨left, hleft, rfl⟩ | ⟨left, hout⟩
  · exact .inl (evaluate_eq_some_iff.2 ⟨decl, body, d, left, hdecl, hbody, hleft, rfl⟩)
  · refine .inr (Run.bind_eq_ok.2 ⟨decl, Arena.get_eq_ok_iff.2 hdecl, ?_⟩)
    simp only [hbody]
    exact Run.bind_eq_ok.2 ⟨_, hout, rfl⟩

/-- Fuel decides whether a method has an outcome, not which one: with more fuel than is enough, and
    with any that is enough, the outcome is the same, and there is an amount of fuel that decides. -/
theorem evaluate_eq_ite (h : p.evaluate m args fuel = .ok (some o)) :
    (∀ fuel' ≥ fuel, p.evaluate m args fuel' = .ok (some o)) ∧
    (∀ fuel' o', p.evaluate m args fuel' = .ok (some o') → o' = o) ∧
    ∃ cost ≤ fuel, ∀ fuel',
      p.evaluate m args fuel' = .ok (if cost ≤ fuel' then some o else none) := by
  have henough : ∀ {least fuel'}, p.evaluate m args least = .ok (some o) → least ≤ fuel' →
      p.evaluate m args fuel' = .ok (some o) := by
    intro least fuel' hleast hle
    obtain ⟨more, rfl⟩ := Nat.exists_eq_add_of_le hle
    exact evaluate_add hleast more
  refine ⟨fun _ hle => henough h hle, fun _ _ h' => evaluate_unique h h', ?_⟩
  have hexists : ∃ cost, p.evaluate m args cost = .ok (some o) := ⟨fuel, h⟩
  refine ⟨Nat.find hexists, Nat.find_min' hexists h, fun fuel' => ?_⟩
  split
  · next hle => exact henough (Nat.find_spec hexists) hle
  · next hlt =>
    -- Less than the least fuel that is enough is not enough, so the run is given up.
    obtain ⟨more, hmore⟩ := Nat.exists_eq_add_of_le (Nat.le_of_lt (Nat.lt_of_not_ge hlt))
    have hspec := Nat.find_spec hexists
    rw [hmore] at hspec
    exact (evaluate_of_add hspec).resolve_left (Nat.find_min hexists (Nat.lt_of_not_ge hlt))

end Program

/-- A method that logs its argument, then counts it down, until it is zero. -/
def sampleTally : Program where
  vars := ⟨#[{ name := "n", type := .int, kind := .parameter }]⟩
  methods := ⟨#[{ name := "log", returns := .int, params := [], isPure := false, body := none },
    { name := "tally", returns := .int, params := [⟨0⟩], isPure := false, body := some ⟨3⟩ }]⟩
  exprs := ⟨#[.var ⟨0⟩, .var ⟨0⟩, .increment .postDec ⟨1⟩, .call ⟨0⟩ none [⟨2⟩], .var ⟨0⟩]⟩
  stmts := ⟨#[.expr ⟨3⟩, .loop ⟨0⟩ ⟨0⟩, .ret (some ⟨4⟩), .block [⟨1⟩, ⟨2⟩]]⟩

/-- From three on it takes 17 units: with 16 there are none left for the value returned. -/
theorem Program.evaluate_eq_ite_tally :
    sampleTally.evaluate ⟨1⟩ [3] 17 = .ok (some ⟨some 0, [3, 2, 1]⟩) ∧
    sampleTally.evaluate ⟨1⟩ [3] 16 = .ok none ∧
    (∀ fuel ≥ 17, sampleTally.evaluate ⟨1⟩ [3] fuel = .ok (some ⟨some 0, [3, 2, 1]⟩)) ∧
    (∀ fuel o, sampleTally.evaluate ⟨1⟩ [3] fuel = .ok (some o) → o = ⟨some 0, [3, 2, 1]⟩) ∧
    ∃ cost ≤ 17, ∀ fuel, sampleTally.evaluate ⟨1⟩ [3] fuel =
      .ok (if cost ≤ fuel then some ⟨some 0, [3, 2, 1]⟩ else none) := by
  have heval : sampleTally.evaluate ⟨1⟩ [3] 17 = .ok (some ⟨some 0, [3, 2, 1]⟩) := by decide +kernel
  exact ⟨heval, by decide +kernel, evaluate_eq_ite heval⟩

end Dataflow
