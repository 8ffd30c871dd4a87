import Dataflow.Proofs.Evaluation

/-!
# Runs that only a lack of fuel can stop

The evaluator gives up where a division has no quotient, where an expression has no meaning and
where the fuel is used up. In a program without the first two it goes on until the fuel is used up
or there is a value. This is shown level by level: each level spends fuel before it goes further
down, and each round of a loop spends fuel before the next one, so the bounds on levels and rounds
are never met before the fuel is.

* `Eval.Endures`: a part of a run that only a lack of fuel can stop;
* `Program.Evaluable`, `Program.Plain`: expressions that have a value, statements that do not return;
* `Program.evalExpr_endures`, `Program.evalStmt_endures`: both endure.
-/

namespace Dataflow

/-! ### Parts of runs -/

namespace Eval

variable {α β : Type} {x : Eval α} {P : α → Prop} {Q : β → Prop} {bound bound' cost cost' : Nat}

/-- A part of a run that only a lack of fuel can stop. With less fuel than `bound` it gives a value of
    the kind `P` at no less than `cost`, or the fuel is used up. -/
def Endures (x : Eval α) (bound cost : Nat) (P : α → Prop) : Prop :=
  ∀ m : Machine, m.fuel < bound →
    (∃ a m', x.Gives m a m' ∧ P a ∧ m'.fuel + cost ≤ m.fuel) ∨
      ∃ m', x.run.run m = .ok (.error .outOfFuel, m') ∧ m'.fuel = 0

theorem Endures.mono (h : x.Endures bound cost P) (hbound : bound' ≤ bound) (hcost : cost' ≤ cost) :
    x.Endures bound' cost' P := by
  intro m hm
  refine (h m (Nat.lt_of_lt_of_le hm hbound)).imp_left ?_
  rintro ⟨a, m', hgives, ha, hfuel⟩
  exact ⟨a, m', hgives, ha, by omega⟩

/-- What the first part spends need not be bounded for the second one. -/
theorem Endures.bind {f : α → Eval β} (hx : x.Endures bound cost P)
    (hf : ∀ a, P a → (f a).Endures bound' 0 Q) (hle : bound ≤ bound' + cost) :
    (x >>= f).Endures bound cost Q := by
  intro m hm
  rcases hx m hm with ⟨a, mid, hgives, ha, hfuel⟩ | ⟨m', hrun, hempty⟩
  · rcases hf a ha mid (by omega) with ⟨b, m', hgives', hb, hfuel'⟩ | ⟨m', hrun, hempty⟩
    · exact .inl ⟨b, m', gives_bind.2 ⟨a, mid, hgives, hgives'⟩, hb, by omega⟩
    · exact .inr ⟨m', Run.bind_eq_ok.2 ⟨_, hgives, hrun⟩, hempty⟩
  · exact .inr ⟨m', Run.bind_eq_ok.2 ⟨_, hrun, rfl⟩, hempty⟩

/-- A first part of which it does not matter what it spends. -/
theorem Endures.andThen {f : α → Eval β} (hx : x.Endures bound cost P)
    (hf : ∀ a, P a → (f a).Endures bound 0 Q) : (x >>= f).Endures bound 0 Q :=
  (hx.mono (Nat.le_refl _) (Nat.zero_le _)).bind hf (Nat.le_refl _)

theorem endures_pure {a : α} (ha : P a) : (pure a : Eval α).Endures bound 0 P := fun m _ =>
  .inl ⟨a, m, gives_pure.2 ⟨rfl, rfl⟩, ha, Nat.le_refl _⟩

theorem endures_spend : spend.Endures bound 1 fun _ => True := by
  rintro ⟨env, effects, fuel⟩ _
  cases fuel with
  | zero => exact .inr ⟨_, rfl, rfl⟩
  | succ fuel => exact .inl ⟨(), _, gives_spend.2 ⟨fuel, rfl, rfl⟩, trivial, Nat.le_refl _⟩

theorem endures_read {v : VarId} : (read v).Endures bound 0 fun _ => True := fun m _ =>
  .inl ⟨_, m, gives_read.2 ⟨rfl, rfl⟩, trivial, Nat.le_refl _⟩

theorem endures_write {v : VarId} {a : Int64} : (write v a).Endures bound 0 fun _ => True := fun _ _ =>
  .inl ⟨(), _, gives_write.2 rfl, trivial, Nat.le_refl _⟩

theorem endures_record {sum : Int64} : (record sum).Endures bound 0 fun _ => True := fun _ _ =>
  .inl ⟨_, _, gives_record.2 ⟨rfl, rfl⟩, trivial, Nat.le_refl _⟩

theorem endures_orDivision {o : Option Int64} (ho : o.isSome) :
    (orDivision o).Endures bound 0 fun _ => True := by
  obtain ⟨a, rfl⟩ := Option.isSome_iff_exists.1 ho
  exact endures_pure trivial

/-- A look-up in a slot that is there. -/
theorem endures_lookup {name : String} {a : Arena name α} {h : Handle name} {y : α}
    (hy : a.get? h = some y) : (liftM (a.get h) : Eval α).Endures bound 0 (y = ·) := fun m _ =>
  .inl ⟨y, m, gives_lookup.2 ⟨hy, rfl⟩, rfl, Nat.le_refl _⟩

theorem endures_mapM {f : α → Eval β} {as : List α}
    (h : ∀ a ∈ as, (f a).Endures bound 0 fun _ => True) :
    (as.mapM f).Endures bound 0 fun _ => True := by
  induction as with
  | nil =>
    rw [List.mapM_nil]
    exact endures_pure trivial
  | cons a as ih =>
    rw [List.forall_mem_cons] at h
    rw [List.mapM_cons]
    exact h.1.andThen fun _ _ => (ih h.2).andThen fun _ _ => endures_pure trivial

/-- Statements that come to their ends one after the other, and what follows them. -/
theorem endures_sequence {self : StmtId → Eval Completion} {ss rest : List StmtId}
    {R : Completion → Prop} (h : ∀ s ∈ ss, (self s).Endures bound 0 (· = .normal))
    (hrest : (sequence self rest).Endures bound 0 R) :
    (sequence self (ss ++ rest)).Endures bound 0 R := by
  induction ss with
  | nil => exact hrest
  | cons s ss ih =>
    rw [List.forall_mem_cons] at h
    refine h.1.andThen ?_
    rintro _ rfl
    exact ih h.2

/-- Each round of a loop spends fuel, so there are enough rounds for the fuel. -/
theorem endures_loop {condition : Eval Int64} {body : Eval Completion}
    (hcondition : condition.Endures bound 1 fun _ => True)
    (hbody : body.Endures bound 0 (· = .normal)) {rounds : Nat} (hle : rounds ≤ bound) :
    (loop condition body rounds).Endures rounds 0 (· = .normal) := by
  induction rounds with
  | zero => exact fun m hm => absurd hm (Nat.not_lt_zero _)
  | succ rounds ih =>
    rw [loop]
    refine Endures.mono (Endures.bind (hcondition.mono hle (Nat.le_refl 1)) (fun a _ => ?_)
      (Nat.le_refl _)) (Nat.le_refl _) (Nat.zero_le _)
    split
    · exact endures_pure rfl
    · refine (hbody.mono (by omega) (Nat.le_refl 0)).andThen ?_
      rintro _ rfl
      exact ih (by omega)

end Eval

/-! ### Expressions -/

namespace Program

open Eval

variable {p q : Program} {x : Expr} {st : Stmt} {n : Nat} {bound : Nat}

/-- An expression that has a value whatever its operands are: it has a meaning, what it names is
    there, it assigns to variables and it divides by nothing. -/
structure Evaluable (p : Program) (x : Expr) : Prop where
  evaluated : x.evaluated.isSome
  operands : ∀ o ∈ x.operands, o.index < p.exprs.size
  named : ∀ v, x.namedVar = some v → v.index < p.vars.size
  callee : ∀ m receiver args, x = .call m receiver args → m.index < p.methods.size
  targets : ∀ t ∈ x.targets, ∃ v, p.exprs.get? t = some (.var v)
  binary : ∀ op lhs rhs, x = .binary op lhs rhs → ∀ a b, (op.eval a b).isSome
  compound : ∀ op target value, x = .compound op target value → ∀ a b, (op.eval a b).isSome

/-- What a program has more of does not matter. -/
theorem Evaluable.mono (h : p.Evaluable x) (hvars : p.vars.size ≤ q.vars.size)
    (hmethods : p.methods.size ≤ q.methods.size)
    (hexprs : ∀ e y, p.exprs.get? e = some y → q.exprs.get? e = some y) : q.Evaluable x where
  evaluated := h.evaluated
  operands o ho := by
    obtain ⟨y, hy⟩ := Arena.exists_get?_of_lt (h.operands o ho)
    exact Arena.get?_eq_some_lt (hexprs o y hy)
  named v hv := Nat.lt_of_lt_of_le (h.named v hv) hvars
  callee m receiver args hx := Nat.lt_of_lt_of_le (h.callee m receiver args hx) hmethods
  targets t ht := (h.targets t ht).imp fun v hv => hexprs t _ hv
  binary := h.binary
  compound := h.compound

theorem endures_evalTarget {t : ExprId} {v : VarId} (ht : p.exprs.get? t = some (.var v)) :
    (p.evalTarget t).Endures bound 0 fun _ => True := by
  refine (endures_lookup ht).andThen ?_
  rintro _ rfl
  exact endures_pure trivial

theorem evalExprStep_endures {self : ExprId → Eval Int64} {e : ExprId}
    (he : p.exprs.get? e = some x) (hx : p.Evaluable x)
    (hself : ∀ o ∈ x.operands, (self o).Endures bound 1 fun _ => True) :
    (p.evalExprStep self e).Endures (bound + 1) 1 fun _ => True := by
  refine endures_spend.bind (fun _ _ => (endures_lookup he).andThen ?_) (Nat.le_refl _)
  rintro _ rfl
  cases x with
  | int | bool | null => exact endures_pure trivial
  | var => exact endures_read
  | unary op operand =>
    exact (hself operand (List.mem_singleton_self _)).andThen fun _ _ => endures_pure trivial
  | binary op lhs rhs =>
    refine (hself lhs List.mem_cons_self).andThen fun a _ => ?_
    refine (hself rhs (List.mem_cons_of_mem _ (List.mem_singleton_self _))).andThen fun b _ => ?_
    exact endures_orDivision (hx.binary op lhs rhs rfl a b)
  | assign target value =>
    obtain ⟨v, hv⟩ := hx.targets target (List.mem_singleton_self _)
    refine (endures_evalTarget hv).andThen fun _ _ => ?_
    refine (hself value (List.mem_cons_of_mem _ (List.mem_singleton_self _))).andThen fun _ _ => ?_
    exact endures_write.andThen fun _ _ => endures_pure trivial
  | compound op target value =>
    obtain ⟨v, hv⟩ := hx.targets target (List.mem_singleton_self _)
    refine (endures_evalTarget hv).andThen fun _ _ => endures_read.andThen fun old _ => ?_
    refine (hself value (List.mem_cons_of_mem _ (List.mem_singleton_self _))).andThen fun b _ => ?_
    refine (endures_orDivision (hx.compound op target value rfl old b)).andThen fun _ _ => ?_
    exact endures_write.andThen fun _ _ => endures_pure trivial
  | increment op target =>
    obtain ⟨v, hv⟩ := hx.targets target (List.mem_singleton_self _)
    refine (endures_evalTarget hv).andThen fun _ _ => endures_read.andThen fun _ _ => ?_
    exact endures_write.andThen fun _ _ => endures_pure trivial
  | call method receiver args =>
    cases receiver with
    | some => cases hx.evaluated
    | none =>
      obtain ⟨decl, hdecl⟩ := Arena.exists_get?_of_lt (hx.callee method none args rfl)
      refine (endures_mapM fun a ha => (hself a ha).mono (Nat.le_refl _) (Nat.zero_le 1)).andThen
        fun _ _ => (endures_lookup hdecl).andThen ?_
      rintro _ rfl
      split
      · exact endures_pure trivial
      · exact endures_record
  | field | newObject | newArray => cases hx.evaluated

/-- Where all expressions are evaluable, only a lack of fuel stops the evaluation of one. -/
theorem evalExpr_endures (hp : ∀ e x, p.exprs.get? e = some x → p.Evaluable x) {e : ExprId}
    (he : e.index < p.exprs.size) : (p.evalExpr e).Endures bound 1 fun _ => True := by
  have hlevel : ∀ depth (e : ExprId), e.index < p.exprs.size →
      (unroll (throw .outOfFuel) p.evalExprStep depth e).Endures depth 1 fun _ => True := by
    intro depth
    induction depth with
    | zero => exact fun _ _ m hm => absurd hm (Nat.not_lt_zero _)
    | succ depth ih =>
      intro e he
      obtain ⟨x, hx⟩ := Arena.exists_get?_of_lt he
      exact evalExprStep_endures hx (hp e x hx) fun o ho => ih o ((hp e x hx).operands o ho)
  -- There is one level more than there is fuel.
  exact fun m _ => hlevel (m.fuel + 1) e he m (Nat.lt_succ_self _)

/-! ### Statements -/

/-- A statement that does not return itself, with expressions that are there and statements that are
    among the first `n`. -/
structure Plain (p : Program) (n : Nat) (st : Stmt) : Prop where
  ret : ∀ value, st ≠ .ret value
  children : ∀ t ∈ st.children, t.index < n
  exprs : ∀ e ∈ st.exprs, e.index < p.exprs.size
  declared : ∀ v init, st = .declare v init → v.index < p.vars.size

theorem Plain.mono {k : Nat} (h : p.Plain n st) (hn : n ≤ k) (hvars : p.vars.size ≤ q.vars.size)
    (hsize : p.exprs.size ≤ q.exprs.size) : q.Plain k st where
  ret := h.ret
  children t ht := Nat.lt_of_lt_of_le (h.children t ht) hn
  exprs e he := Nat.lt_of_lt_of_le (h.exprs e he) hsize
  declared v init hst := Nat.lt_of_lt_of_le (h.declared v init hst) hvars

theorem evalStmtStep_endures (hp : ∀ e x, p.exprs.get? e = some x → p.Evaluable x)
    {self : StmtId → Eval Completion} {s : StmtId} (hs : p.stmts.get? s = some st) (hst : p.Plain n st)
    (hself : ∀ t ∈ st.children, (self t).Endures bound 0 (· = .normal)) :
    (p.evalStmtStep self s).Endures (bound + 1) 0 (· = .normal) := by
  refine Endures.mono (endures_spend.bind (fun _ _ => (endures_lookup hs).andThen ?_)
    (Nat.le_refl _)) (Nat.le_refl _) (Nat.zero_le 1)
  rintro _ rfl
  have hexpr : ∀ e ∈ st.exprs, (p.evalExpr e).Endures bound 1 fun _ => True := fun e he =>
    evalExpr_endures hp (hst.exprs e he)
  cases st with
  | block ss =>
    rw [← List.append_nil ss]
    exact endures_sequence hself (endures_pure rfl)
  | declare v init =>
    cases init with
    | none => exact endures_pure rfl
    | some e =>
      refine (hexpr e (List.mem_singleton_self e)).andThen fun a _ => ?_
      exact endures_write.andThen fun _ _ => endures_pure rfl
  | expr e => exact (hexpr e (List.mem_singleton_self e)).andThen fun _ _ => endures_pure rfl
  | branch e t o =>
    refine (hexpr e (List.mem_singleton_self e)).andThen fun a _ => ?_
    split
    · exact hself t List.mem_cons_self
    · cases o with
      | none => exact endures_pure rfl
      | some t' => exact hself t' (List.mem_cons_of_mem _ (List.mem_singleton_self t'))
  | loop e b =>
    intro m hm
    exact endures_loop (hexpr e (List.mem_singleton_self e)) (hself b (List.mem_singleton_self b))
      (Nat.succ_le_of_lt hm) m (Nat.lt_succ_self _)
  | ret value => exact absurd rfl (hst.ret value)

/-- The levels of a statement that endures at each of them. -/
theorem evalStmt_endures_of_levels {s : StmtId} {R : Completion → Prop}
    (h : ∀ depth, (unroll (throw .outOfFuel) p.evalStmtStep depth s).Endures depth 0 R) :
    (p.evalStmt s).Endures bound 0 R :=
  fun m _ => h (m.fuel + 1) m (Nat.lt_succ_self _)

/-- Where the first `n` statements are plain and all expressions are evaluable, only a lack of fuel
    keeps one of these statements from coming to its end, at any level. -/
theorem unroll_evalStmtStep_endures (hp : ∀ e x, p.exprs.get? e = some x → p.Evaluable x)
    (hn : n ≤ p.stmts.size)
    (hplain : ∀ s st, s.index < n → p.stmts.get? s = some st → p.Plain n st) (depth : Nat)
    {s : StmtId} (hs : s.index < n) :
    (unroll (throw .outOfFuel) p.evalStmtStep depth s).Endures depth 0 (· = .normal) := by
  induction depth generalizing s with
  | zero => exact fun m hm => absurd hm (Nat.not_lt_zero _)
  | succ depth ih =>
    obtain ⟨st, hst⟩ := Arena.exists_get?_of_lt (Nat.lt_of_lt_of_le hs hn)
    have hst' := hplain s st hs hst
    exact evalStmtStep_endures hp hst hst' fun t ht => ih (hst'.children t ht)

end Program

end Dataflow
