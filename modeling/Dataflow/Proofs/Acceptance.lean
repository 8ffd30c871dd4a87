import Dataflow.Proofs.Places

/-!
# What lowering makes of programs

Where following the parts of a body comes to an end, its graph is always made, unless something
is assigned to that is neither a variable nor a field: lowering meets no other error, every handle
that it follows leads somewhere, and it needs no more levels than there are.

* `Lowered.Answers`: a lowering that succeeds or meets that one error;
* `Spans.operations_answers`, `StmtSpans.ofBody_answers`: lowering expressions and a body;
* `Program.Lists.ofBody_answers`: lowering a body of a tree program.
-/

namespace Dataflow

/-- Some expression assigns to `target`, which is neither a variable nor a field. -/
def Program.Misassigns (p : Program) (target : Expr) : Prop :=
  ∃ e x t, p.exprs.get? e = some x ∧ t ∈ x.targets ∧ p.exprs.get? t = some target ∧
    target.namedVar = none

namespace Lowered

/-- A lowering succeeds, or finds an assignment to a target that is `bad`. -/
def Answers {α : Type} (bad : Expr → Prop) (x : Lowered α) : Prop :=
  (∃ a, x = (.ok (.ok a) : Run (Except Error α))) ∨
    ∃ target, bad target ∧ x = (.ok (.error (.badTarget target)) : Run (Except Error α))

variable {α β : Type} {bad : Expr → Prop} {x : Lowered α} {f : α → Lowered β}

theorem answers_pure (a : α) : Answers bad (pure a : Lowered α) := .inl ⟨a, rfl⟩

theorem Answers.bind (hx : Answers bad x) (hf : ∀ a, Answers bad (f a)) : Answers bad (x >>= f) := by
  rcases hx with ⟨a, rfl⟩ | ⟨target, htarget, rfl⟩
  · exact hf a
  · exact .inr ⟨target, htarget, rfl⟩

theorem answers_get {name : String} {a : Arena name α} {h : Handle name} {y : α}
    (hy : a.get? h = some y) (hf : Answers bad (f y)) : Answers bad (liftM (a.get h) >>= f) := by
  rw [Arena.get_eq_ok_iff.2 hy]
  exact hf

theorem answers_mapM {xs : List α} (h : ∀ a ∈ xs, Answers bad (f a)) : Answers bad (xs.mapM f) := by
  induction xs with
  | nil => exact answers_pure []
  | cons a xs ih =>
    rw [List.forall_mem_cons] at h
    rw [List.mapM_cons]
    exact h.1.bind fun _ => (ih h.2).bind fun _ => answers_pure _

theorem answers_foldlM {xs : List α} {step : β → α → Lowered β}
    (h : ∀ a ∈ xs, ∀ b, Answers bad (step b a)) (b : β) : Answers bad (xs.foldlM step b) := by
  induction xs generalizing b with
  | nil => exact answers_pure b
  | cons a xs ih =>
    rw [List.forall_mem_cons] at h
    rw [List.foldlM_cons]
    exact (h.1 b).bind fun b' => ih h.2 b'

end Lowered

open Lowered

namespace Program

variable {p : Program} {self : ExprId → Lowered (List Operation)} {es l : List ExprId} {e : ExprId}
  {bad : Expr → Prop}

/-! ### Expressions -/

/-- Lowering a target, if what is inside it can be lowered. -/
theorem targetOperations_answers {t : ExprId}
    (hbad : ∀ y, p.exprs.get? t = some y → y.namedVar = none → bad y) (h : Spans p es l)
    (htl : t ∈ l) (hself : ∀ o ∈ l, Answers bad (self o)) :
    Answers bad (p.targetOperations self t) := by
  obtain ⟨y, hy⟩ := h.exists_get htl
  refine answers_get hy ?_
  cases y with
  | var v => exact answers_pure _
  | field object v =>
    have hobject : object ∈ l := h.mem_of_mem_operands htl hy (List.mem_singleton_self object)
    exact (hself object hobject).bind fun _ => answers_pure _
  | _ => exact .inr ⟨_, hbad _ hy rfl, rfl⟩

/-- Lowering an expression, if what is inside it can be lowered. -/
theorem operationsStep_answers {x : Expr} (he : p.exprs.get? e = some x)
    (hbad : ∀ t ∈ x.targets, ∀ y, p.exprs.get? t = some y → y.namedVar = none → bad y)
    (h : Spans p x.operands l) (hself : ∀ o ∈ l, Answers bad (self o)) :
    Answers bad (p.operationsStep self e) := by
  have hroot : ∀ o ∈ x.operands, Answers bad (self o) := fun o ho => hself o (h.mem_of_mem_roots ho)
  have htarget : ∀ t ∈ x.targets, t ∈ x.operands → Answers bad (p.targetOperations self t) :=
    fun t ht hto => targetOperations_answers (hbad t ht) h (h.mem_of_mem_roots hto) hself
  refine answers_get he ?_
  cases x with
  | int | bool | null | var | newObject => exact answers_pure _
  | field object v =>
    exact (hroot object (by simp [Expr.operands])).bind fun _ => answers_pure _
  | unary op operand => exact hroot operand (by simp [Expr.operands])
  | newArray element length => exact hroot length (by simp [Expr.operands])
  | binary op lhs rhs =>
    exact (hroot lhs (by simp [Expr.operands])).bind fun _ =>
      (hroot rhs (by simp [Expr.operands])).bind fun _ => answers_pure _
  | assign target value | compound op target value =>
    exact (htarget target (by simp [Expr.targets]) (by simp [Expr.operands])).bind fun _ =>
      (hroot value (by simp [Expr.operands])).bind fun _ => answers_pure _
  | increment op target =>
    exact (htarget target (by simp [Expr.targets]) (by simp [Expr.operands])).bind fun _ =>
      answers_pure _
  | call method receiver args => exact (answers_mapM hroot).bind fun _ => answers_pure _

end Program

/-- Lowering the expressions inside others. -/
theorem Spans.operations_answers {p : Program} {es l : List ExprId} (bad : Expr → Prop)
    (h : Spans p es l)
    (hbad : ∀ e ∈ l, ∀ x, p.exprs.get? e = some x → ∀ t ∈ x.targets, ∀ y, p.exprs.get? t = some y →
      y.namedVar = none → bad y) : ∀ e ∈ l, Answers bad (p.operations e) :=
  h.forall_unroll (fun e he _ x _ hx hinner hself =>
    Program.operationsStep_answers hx (hbad e he x hx) hinner hself)
    (Nat.le_succ_of_le h.length_dedup_le)

namespace Program

variable {p : Program} {e : ExprId}

theorem Lists.operations_answers {ls : List StmtId} {le : List ExprId} (h : p.Lists ls le)
    (he : e ∈ le) : Answers p.Misassigns (p.operations e) := by
  obtain ⟨l, hl, _⟩ := h.spans.exists_spans he
  refine hl.operations_answers _ (fun e _ x hx t ht y hy hnamed => ?_) e
    (hl.mem_of_mem_roots (List.mem_singleton_self e))
  exact ⟨e, x, t, hx, ht, hy, hnamed⟩

/-! ### Statements -/

section Stmts

variable {bad : Expr → Prop} {selfStmt : StmtId → Draft → Lowered Draft} {s : StmtId}

theorem lowerExpr_answers (h : Answers bad (p.operations e)) (d : Draft) :
    Answers bad (p.lowerExpr d e) :=
  h.bind fun _ => answers_pure _

/-- Lowering a statement, if what is inside it can be lowered. -/
theorem lowerStep_answers {st : Stmt} (hs : p.stmts.get? s = some st)
    (hexprs : ∀ e ∈ st.exprs, Answers bad (p.operations e))
    (hchildren : ∀ t ∈ st.children, ∀ d, Answers bad (selfStmt t d)) (d : Draft) :
    Answers bad (p.lowerStep selfStmt s d) := by
  have hexpr : ∀ e ∈ st.exprs, ∀ d, Answers bad (p.lowerExpr d e) := fun e he d =>
    lowerExpr_answers (hexprs e he) d
  refine answers_get hs ?_
  cases st with
  | block stmts =>
    exact (answers_foldlM (fun t ht d => hchildren t ht d) _).bind fun _ => answers_pure _
  | declare v init =>
    cases init with
    | none => exact answers_pure _
    | some e => exact (hexpr e (by simp [Stmt.exprs]) _).bind fun _ => answers_pure _
  | expr e => exact (hexpr e (by simp [Stmt.exprs]) _).bind fun _ => answers_pure _
  | branch condition thenStmt elseStmt =>
    refine (hexpr condition (by simp [Stmt.exprs]) _).bind fun d => ?_
    refine (hchildren thenStmt (by simp [Stmt.children]) _).bind fun d => ?_
    cases elseStmt with
    | none => exact answers_pure _
    | some t => exact (hchildren t (by simp [Stmt.children]) _).bind fun _ => answers_pure _
  | loop condition body =>
    refine (hexpr condition (by simp [Stmt.exprs]) _).bind fun d => ?_
    exact (hchildren body (by simp [Stmt.children]) _).bind fun _ => answers_pure _
  | ret value =>
    cases value with
    | none => exact answers_pure _
    | some e => exact (hexpr e (by simp [Stmt.exprs]) _).bind fun _ => answers_pure _

/-- Lowering what is inside statements. It takes as many levels as there are different
    statements. -/
theorem lower_answers_of_spans {ss ls : List StmtId} {le : List ExprId} (h : StmtSpans p ss ls le)
    (hexprs : ∀ s ∈ ls, ∀ st, p.stmts.get? s = some st → ∀ e ∈ st.exprs,
      Answers bad (p.operations e)) {depth : Nat} (hdepth : ls.dedup.length ≤ depth) :
    ∀ s ∈ ls, ∀ d,
      Answers bad (unroll (fun _ => throwThe Fault .endless) p.lowerStep depth s d) := by
  induction h generalizing depth with
  | nil => exact fun s hs => absurd hs List.not_mem_nil
  | @cons s st ss inner rest own below others hst _ hbelow _ ih₁ ih₂ =>
    have hlt := (length_dedup_below_lt (StmtSpans.not_mem_inner hst hbelow) rest).trans_le hdepth
    rw [List.forall_mem_cons, List.forall_mem_append] at hexprs
    intro s' hs'
    rcases List.mem_cons.1 hs' with rfl | hs'
    · obtain ⟨depth, rfl⟩ := Nat.exists_eq_add_of_le' (show 1 ≤ depth by omega)
      rw [unroll_succ]
      refine lowerStep_answers hst (hexprs.1 st hst) fun t ht => ?_
      exact ih₁ hexprs.2.1 (by omega) t (hbelow.mem_of_mem_roots ht)
    · rcases List.mem_append.1 hs' with hs' | hs'
      · exact ih₁ hexprs.2.1 hlt.le s' hs'
      · exact ih₂ hexprs.2.2 ((length_dedup_beside_le s inner rest).trans hdepth) s' hs'

end Stmts

end Program

/-- The graph of a statement is made, or one of the expressions in it cannot be lowered. -/
theorem StmtSpans.ofBody_answers {p : Program} {body : StmtId} {ls : List StmtId}
    {le : List ExprId} (bad : Expr → Prop) (h : StmtSpans p [body] ls le)
    (hexprs : ∀ s ∈ ls, ∀ st, p.stmts.get? s = some st → ∀ e ∈ st.exprs,
      Answers bad (p.operations e)) : (∃ g, Graph.ofBody p body = .ok (.ok g)) ∨
      ∃ target, bad target ∧ Graph.ofBody p body = .ok (.error (.badTarget target)) := by
  have hlower : Answers bad (p.lower body {}) := Program.lower_answers_of_spans h hexprs
    (Nat.le_succ_of_le h.length_dedup_le) body (h.mem_of_mem_roots (List.mem_singleton_self body)) _
  exact hlower.bind fun _ => answers_pure _

namespace Program

/-- The graph of a body of a tree program is made, or the body assigns to something that is neither
    a variable nor a field. -/
theorem Lists.ofBody_answers {p : Program} {ls : List StmtId} {le : List ExprId} (h : p.Lists ls le)
    {body : StmtId}
    (hbody : body ∈ ls) : (∃ g, Graph.ofBody p body = .ok (.ok g)) ∨
      ∃ target, p.Misassigns target ∧ Graph.ofBody p body = .ok (.error (.badTarget target)) := by
  obtain ⟨ls', le', hspans, _, hsub'⟩ := h.spans.exists_stmtSpans hbody
  refine hspans.ofBody_answers _ fun s hs st hst e he => ?_
  exact h.operations_answers (hsub'.subset (hspans.mem_of_mem_exprs hs hst he))

end Program

/-! ### Bodies that have a graph -/

theorem Stmt.children_of_isStraight {st : Stmt} (h : st.isStraight = true) : st.children = [] := by
  cases st <;> first | rfl | cases h

theorem SpelledBy.exists_of_mem {self : ExprId → Lowered (List Operation)} {es : List ExprId}
    {os : List Operation} (h : SpelledBy self es os) {e : ExprId} (he : e ∈ es) :
    ∃ os', self e = (.ok (.ok os') : Run (Except Error _)) := by
  induction es generalizing os with
  | nil => cases he
  | cons e' es ih =>
    obtain ⟨first, rest, hfirst, hrest, _⟩ := h
    rcases List.mem_cons.1 he with rfl | he
    · exact ⟨first, hfirst⟩
    · exact ih hrest he

section Laid

variable {g : Graph} {p : Program} {parent : Option NodeId} {ins outs ends : List OpenEdge}
  {ns : List NodeId} {ls : List StmtId} {le : List ExprId} {s : StmtId} {st : Stmt}

/-- The operations of all statements that are laid out can be told. -/
theorem Laid.exists_spells {part : Part} (h : Laid g p parent part ins ns outs ends)
    (hspans : StmtSpans p part.stmts ls le) (hs : s ∈ ls) (hst : p.stmts.get? s = some st) :
    ∃ os, p.Spells st.exprs os := by
  -- The first statement of a part, if what is inside it is settled.
  have hfirst : ∀ {t : StmtId} {st' : Stmt} {ls : List StmtId} {le : List ExprId},
      p.stmts.get? t = some st' → (∃ os, p.Spells st'.exprs os) → StmtSpans p [t] ls le →
      (∀ inner below, StmtSpans p st'.children inner below → s ∈ inner →
        ∃ os, p.Spells st.exprs os) → s ∈ ls → ∃ os, p.Spells st.exprs os := by
    intro t st' ls le ht hos hspans hinner hs
    cases hspans with
    | cons ht' _ hbelow hnil =>
      cases ht.symm.trans ht'
      cases hnil
      rw [List.append_nil] at hs
      rcases List.mem_cons.1 hs with rfl | hs
      · cases hst.symm.trans ht
        exact hos
      · exact hinner _ _ hbelow hs
  induction h generalizing ls le with
  | block hs' _ _ ih => exact hfirst hs' ⟨[], rfl⟩ hspans (fun _ _ hb => ih hb) hs
  | straight hs' hstraight hh =>
    obtain ⟨_, os, _, _, _, hos, _⟩ := hh.exists_spelled
    refine hfirst hs' ⟨os, hos⟩ hspans (fun inner below hb hmem => ?_) hs
    rw [Stmt.children_of_isStraight hstraight] at hb
    cases hb
    cases hmem
  | ret hs' hh =>
    obtain ⟨_, os, _, _, _, hos, _⟩ := hh.exists_spelled
    refine hfirst hs' ⟨os, hos⟩ hspans (fun inner below hb hmem => ?_) hs
    cases hb
    cases hmem
  | branch hs' hh _ _ ih₁ ih₂ =>
    obtain ⟨_, os, _, _, _, hos, _⟩ := hh.exists_spelled
    refine hfirst hs' ⟨os, hos⟩ hspans (fun inner below hb hmem => ?_) hs
    obtain ⟨_, _, _, _, hthen, helse, _, rfl⟩ := hb.of_cons
    exact (List.mem_append.1 hmem).elim (ih₁ hthen) (ih₂ helse)
  | loop hs' hh _ ih =>
    obtain ⟨_, os, _, _, _, hos, _⟩ := hh.exists_spelled
    exact hfirst hs' ⟨os, hos⟩ hspans (fun _ _ hb => ih hb) hs
  | nil =>
    cases hspans
    cases hs
  | cons _ _ ih₁ ih₂ =>
    obtain ⟨_, _, _, _, hone, hrest, _, rfl⟩ := hspans.of_cons
    exact (List.mem_append.1 hs).elim (ih₁ hone) (ih₂ hrest)

/-- A body that some graph follows can be lowered. -/
theorem Graph.LaidOut.exists_ofBody {body : StmtId} (h : g.LaidOut p body) (hl : p.Lists ls le)
    (hbody : body ∈ ls) : ∃ g', Graph.ofBody p body = .ok (.ok g') := by
  obtain ⟨ns, last, outs, ends, _, hlaid, _⟩ := h
  obtain ⟨ls', le', hspans, _, _⟩ := hl.spans.exists_stmtSpans hbody
  refine (hspans.ofBody_answers (fun _ => False) fun s hs st hst e he => ?_).resolve_right
    fun ⟨_, hbad, _⟩ => hbad
  obtain ⟨os, hos⟩ := hlaid.exists_spells hspans hs hst
  exact .inl (hos.exists_of_mem he)

end Laid

end Dataflow
