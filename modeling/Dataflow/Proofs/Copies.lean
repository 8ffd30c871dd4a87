import Dataflow.Program.Edit
import Dataflow.Proofs.Purity

/-!
# Copies of expressions

`Program.cloneExpr` puts a copy of an expression and of all its operands into fresh
slots. Copies have the same heads as what they are copies of, and their operands are copies
of the operands.

* `Expr.withOperands`, `Expr.mapOperands_eq`: an expression with other operands;
* `Copies`: expressions and copies of them, with all that is inside both;
* `Program.Grown`: a program with more expressions;
* `Spans.exists_cloneExpr`: cloning succeeds and gives a copy.
-/

namespace Dataflow

namespace Expr

/-- The expression with other operands. -/
def withOperands : Expr → List ExprId → Expr
  | field _ v, [object] => field object v
  | unary op _, [operand] => unary op operand
  | binary op _ _, [lhs, rhs] => binary op lhs rhs
  | assign _ _, [target, value] => assign target value
  | compound op _ _, [target, value] => compound op target value
  | increment op _, [target] => increment op target
  | call method none _, args => call method none args
  | call method (some _) _, receiver :: args => call method (some receiver) args
  | newArray element _, [length] => newArray element length
  | x, _ => x

variable {x : Expr} {os os' : List ExprId}

/-- Changing the operands one by one, and putting the new ones in place. -/
theorem mapOperands_eq {m : Type → Type} [Monad m] [LawfulMonad m] (f : ExprId → m ExprId)
    (x : Expr) : x.mapOperands f = x.operands.mapM f >>= fun os => pure (x.withOperands os) := by
  cases x with
  | call method receiver args => cases receiver <;> simp [mapOperands, operands, withOperands]
  | _ => simp [mapOperands, operands, withOperands]

theorem operands_withOperands (h : os.length = x.operands.length) :
    (x.withOperands os).operands = os := by
  cases x with
  | int | bool | null | var | newObject => exact (List.length_eq_zero_iff.1 h).symm
  | field | unary | increment | newArray =>
    obtain ⟨o, rfl⟩ := List.length_eq_one_iff.1 h
    rfl
  | binary | assign | compound =>
    obtain ⟨a, b, rfl⟩ := List.length_eq_two.1 h
    rfl
  | call method receiver args =>
    cases receiver with
    | none => rfl
    | some receiver =>
      cases os with
      | nil => cases h
      | cons o os => rfl

theorem withOperands_withOperands (h : os.length = x.operands.length)
    (h' : os'.length = x.operands.length) :
    (x.withOperands os).withOperands os' = x.withOperands os' := by
  cases x with
  | int | bool | null | var | newObject => rfl
  | field | unary | increment | newArray =>
    obtain ⟨_, rfl⟩ := List.length_eq_one_iff.1 h
    obtain ⟨_, rfl⟩ := List.length_eq_one_iff.1 h'
    rfl
  | binary | assign | compound =>
    obtain ⟨_, _, rfl⟩ := List.length_eq_two.1 h
    obtain ⟨_, _, rfl⟩ := List.length_eq_two.1 h'
    rfl
  | call method receiver args =>
    cases receiver with
    | none => rfl
    | some receiver =>
      obtain ⟨_, _, rfl⟩ := List.exists_cons_of_length_eq_add_one h
      obtain ⟨_, _, rfl⟩ := List.exists_cons_of_length_eq_add_one h'
      rfl

@[simp] theorem namedVar_withOperands : (x.withOperands os).namedVar = x.namedVar := by
  fun_cases withOperands x os <;> rfl

@[simp] theorem isAllocation_withOperands : (x.withOperands os).isAllocation = x.isAllocation := by
  fun_cases withOperands x os <;> rfl

@[simp] theorem impureHead_withOperands (p : Program) :
    p.impureHead (x.withOperands os) = p.impureHead x := by
  fun_cases withOperands x os <;> rfl

theorem exists_call_of_withOperands {m : MethodId} {receiver : Option ExprId} {args : List ExprId}
    (h : x.withOperands os = call m receiver args) :
    ∃ receiver' args', x = call m receiver' args' := by
  revert h
  fun_cases withOperands x os <;> intro h <;> cases h <;> exact ⟨_, _, rfl⟩

theorem exists_field_of_withOperands {object : ExprId} {v : VarId}
    (h : x.withOperands os = field object v) : ∃ object', x = field object' v := by
  revert h
  fun_cases withOperands x os <;> intro h <;> cases h <;> exact ⟨_, rfl⟩

end Expr

/-- Expressions of one program with all that is inside them, and copies of them in another
    program with all that is inside these. -/
inductive Copies (p q : Program) :
    List ExprId → List ExprId → List ExprId → List ExprId → Prop
  | nil : Copies p q [] [] [] []
  | cons {e c : ExprId} {x : Expr} {os es inner rest cs inner' rest' : List ExprId} :
    p.exprs.get? e = some x → q.exprs.get? c = some (x.withOperands os) →
    os.length = x.operands.length → Copies p q x.operands inner os inner' →
    Copies p q es rest cs rest' →
    Copies p q (e :: es) (e :: (inner ++ rest)) (c :: cs) (c :: (inner' ++ rest'))

namespace Copies

variable {p q q' : Program} {es l cs l' : List ExprId}

theorem spans (h : Copies p q es l cs l') : Spans q cs l' := by
  induction h with
  | nil => exact .nil
  | cons _ hc hlen _ _ ih₁ ih₂ =>
    exact .cons hc (by rwa [Expr.operands_withOperands hlen]) ih₂

theorem spans_original (h : Copies p q es l cs l') : Spans p es l := by
  induction h with
  | nil => exact .nil
  | cons he _ _ _ _ ih₁ ih₂ => exact .cons he ih₁ ih₂

theorem length_eq (h : Copies p q es l cs l') : l'.length = l.length := by
  induction h with
  | nil => rfl
  | cons _ _ _ _ _ ih₁ ih₂ => simp only [List.length_cons, List.length_append, ih₁, ih₂]

/-- Every copy is one of something, with other operands. -/
theorem exists_of_mem (h : Copies p q es l cs l') {c : ExprId} (hc : c ∈ l') :
    ∃ e ∈ l, ∃ x os, p.exprs.get? e = some x ∧ q.exprs.get? c = some (x.withOperands os) ∧
      os.length = x.operands.length ∧ ∀ o ∈ os, o ∈ l' := by
  induction h with
  | nil => cases hc
  | @cons e c' x os es inner rest cs inner' rest' he hx hlen hinner _ ih₁ ih₂ =>
    rcases List.mem_cons.1 hc with rfl | hc
    · refine ⟨e, List.mem_cons_self, x, os, he, hx, hlen, fun o ho => ?_⟩
      exact List.mem_cons_of_mem _ (List.mem_append_left _ (hinner.spans.mem_of_mem_roots ho))
    · rcases List.mem_append.1 hc with hc | hc
      · obtain ⟨e', he', y, os', hy, hy', hlen', hos⟩ := ih₁ hc
        exact ⟨e', List.mem_cons_of_mem _ (List.mem_append_left _ he'), y, os', hy, hy', hlen',
          fun o ho => List.mem_cons_of_mem _ (List.mem_append_left _ (hos o ho))⟩
      · obtain ⟨e', he', y, os', hy, hy', hlen', hos⟩ := ih₂ hc
        exact ⟨e', List.mem_cons_of_mem _ (List.mem_append_right _ he'), y, os', hy, hy', hlen',
          fun o ho => List.mem_cons_of_mem _ (List.mem_append_right _ (hos o ho))⟩

/-- Copies stay what they are if their slots do. -/
theorem congr (h : Copies p q es l cs l') (hl : ∀ c ∈ l', q'.exprs.get? c = q.exprs.get? c) :
    Copies p q' es l cs l' := by
  induction h with
  | nil => exact .nil
  | cons he hc hlen _ _ ih₁ ih₂ =>
    rw [List.forall_mem_cons, List.forall_mem_append] at hl
    exact .cons he (hl.1.trans hc) hlen (ih₁ hl.2.1) (ih₂ hl.2.2)

end Copies

/-- A program with more expressions than another one, all of them listed, each once. -/
structure Program.Grown (p q : Program) (fresh : List ExprId) : Prop where
  vars : q.vars = p.vars
  methods : q.methods = p.methods
  stmts : q.stmts = p.stmts
  le : p.exprs.size ≤ q.exprs.size
  old : ∀ e : ExprId, e.index < p.exprs.size → q.exprs.get? e = p.exprs.get? e
  nodup : fresh.Nodup
  mem_iff : ∀ e : ExprId, e ∈ fresh ↔ p.exprs.size ≤ e.index ∧ e.index < q.exprs.size

namespace Program

variable {p q q' : Program} {fresh fresh' : List ExprId}

theorem Grown.refl (p : Program) : p.Grown p [] where
  vars := rfl
  methods := rfl
  stmts := rfl
  le := Nat.le_refl _
  old _ _ := rfl
  nodup := List.nodup_nil
  mem_iff e := by simp only [List.not_mem_nil, false_iff]; omega

theorem Grown.trans (h : p.Grown q fresh) (h' : q.Grown q' fresh') :
    p.Grown q' (fresh ++ fresh') where
  vars := h'.vars.trans h.vars
  methods := h'.methods.trans h.methods
  stmts := h'.stmts.trans h.stmts
  le := Nat.le_trans h.le h'.le
  old e he := (h'.old e (Nat.lt_of_lt_of_le he h.le)).trans (h.old e he)
  nodup := by
    refine List.nodup_append.2 ⟨h.nodup, h'.nodup, ?_⟩
    rintro e he e' he' rfl
    have := ((h.mem_iff e).1 he).2
    have := ((h'.mem_iff e).1 he').1
    omega
  mem_iff e := by
    rw [List.mem_append, h.mem_iff, h'.mem_iff]
    have := h.le
    have := h'.le
    omega

theorem Grown.perm (h : p.Grown q fresh) (hperm : fresh.Perm fresh') : p.Grown q fresh' where
  __ := h
  nodup := hperm.nodup_iff.1 h.nodup
  mem_iff e := hperm.mem_iff.symm.trans (h.mem_iff e)

theorem grown_addExpr (p : Program) (x : Expr) : p.Grown (p.addExpr x) [p.exprs.next] where
  vars := rfl
  methods := rfl
  stmts := rfl
  le := by rw [addExpr, Arena.size_push]; omega
  old e he := Arena.get?_push_of_lt x he
  nodup := List.nodup_singleton _
  mem_iff e := by
    rw [List.mem_singleton, addExpr, Arena.size_push, ← Handle.index_inj, Arena.next_index]
    omega

/-- One level of cloning: the operands are copied, then the expression. -/
theorem cloneStep_eq_ok {self : ExprId → StateT Program Run ExprId} {e : ExprId} {x : Expr}
    {os : List ExprId} (hx : p.exprs.get? e = some x)
    (hos : (x.operands.mapM self).run p = .ok (os, q)) :
    (cloneStep self e).run p = .ok (q.exprs.next, q.addExpr (x.withOperands os)) := by
  have hget : (liftM (p.exprs.get e) : StateT Program Run Expr).run p = .ok (x, p) :=
    Run.bind_eq_ok.2 ⟨x, Arena.get_eq_ok_iff.2 hx, rfl⟩
  have hmap : (x.mapOperands self).run p = .ok (x.withOperands os, q) := by
    rw [Expr.mapOperands_eq]
    exact Run.bind_eq_ok.2 ⟨(os, q), hos, rfl⟩
  exact Run.bind_eq_ok.2 ⟨_, hget, Run.bind_eq_ok.2 ⟨_, hmap, rfl⟩⟩

end Program

namespace Spans

variable {p q : Program} {es l : List ExprId} {e : ExprId}

theorem exists_clones (h : Spans p es l) {depth : Nat} (hdepth : l.dedup.length ≤ depth)
    (hq : ∀ e ∈ l, q.exprs.get? e = p.exprs.get? e) :
    ∃ cs l' q', (es.mapM (unroll (throw .endless) Program.cloneStep depth)).run q =
        (.ok (cs, q') : Run (List ExprId × Program)) ∧
      Copies p q' es l cs l' ∧ q.Grown q' l' ∧ cs.length = es.length := by
  induction h generalizing depth q with
  | nil => exact ⟨[], [], q, rfl, .nil, .refl q, rfl⟩
  | @cons e x es inner rest hx hinner hrest ih₁ ih₂ =>
    have hbelow := length_dedup_below_lt (not_mem_inner hx hinner) rest
    have hbeside := length_dedup_beside_le e inner rest
    rw [List.forall_mem_cons, List.forall_mem_append] at hq
    obtain ⟨depth, rfl⟩ : ∃ k, depth = k + 1 := ⟨depth - 1, by omega⟩
    obtain ⟨os, inner', q₁, hos, hcopies, hgrown, hlen⟩ :=
      ih₁ (show inner.dedup.length ≤ depth by omega) hq.2.1
    have hstep := Program.cloneStep_eq_ok (hq.1.trans hx) hos
    have hadd := Program.grown_addExpr q₁ (x.withOperands os)
    have hmid := hgrown.trans hadd
    have hlt : ∀ e ∈ rest, e.index < q.exprs.size := by
      intro e he
      obtain ⟨y, hy⟩ := hrest.exists_get he
      exact Arena.get?_eq_some_lt ((hq.2.2 e he).trans hy)
    obtain ⟨cs, rest', q', hcs, hcopies', hgrown', hlen'⟩ :=
      ih₂ (show rest.dedup.length ≤ depth + 1 by omega) fun e he =>
        (hmid.old e (hlt e he)).trans (hq.2.2 e he)
    refine ⟨q₁.exprs.next :: cs, q₁.exprs.next :: (inner' ++ rest'), q', ?_, ?_, ?_, ?_⟩
    · rw [List.mapM_cons]
      exact Run.bind_eq_ok.2 ⟨_, hstep, Run.bind_eq_ok.2 ⟨_, hcs, rfl⟩⟩
    · have hlast := hadd.trans hgrown'
      refine .cons hx ?_ hlen (hcopies.congr fun c hc => ?_) hcopies'
      · rw [hgrown'.old _ ((hadd.mem_iff _).1 (List.mem_singleton_self _)).2]
        exact Arena.get?_push_next _ _
      · exact hlast.old c ((hgrown.mem_iff c).1 hc).2
    · refine (hmid.trans hgrown').perm ?_
      rw [List.perm_iff_count]
      intro a
      simp only [List.count_append, List.count_cons, List.count_nil]
      omega
    · simp [hlen']

/-- Cloning an expression succeeds, and gives a copy of it in fresh slots. -/
theorem exists_cloneExpr (h : Spans p [e] l) :
    ∃ c l' q, p.cloneExpr e = .ok (c, q) ∧ Copies p q [e] l [c] l' ∧ p.Grown q l' := by
  obtain ⟨cs, l', q, hcs, hcopies, hgrown, _⟩ :=
    h.exists_clones (Nat.le_succ_of_le h.length_dedup_le) fun _ _ => rfl
  rw [List.mapM_cons] at hcs
  obtain ⟨⟨c, q₁⟩, hc, hcs⟩ := Run.bind_eq_ok.1 hcs
  cases hcs
  exact ⟨c, l', q, hc, hcopies, hgrown⟩

end Spans

end Dataflow
