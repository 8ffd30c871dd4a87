import Dataflow.Proofs.Preservation

/-!
# Loops that stir

What is known where a loop begins goes around the loop and meets itself there, unless it is
forgotten on the way. So facts that were settled for the graph of a loop may be others than those
that solving from scratch finds: a value that came from nowhere else would do as well. This cannot be
where every way around the loop writes something or has a side effect, as no value is known from
before such a place is passed to after it.

* `Program.Stirs`: a part of a body that cannot be passed without a write or a side effect;
* `Program.LoopsStir`: a program all of whose loops are such;
* `Inlining.exists_stirring`: an operation that makes a part so;
* `Program.Edited.loopsStir`: putting a copy in place of a read keeps this.
-/

namespace Dataflow

variable {p q : Program} {ls : List StmtId} {le la lc : List ExprId} {r c a : ExprId}

/-- On every way through a part of a body, from its begin to its end, something is written or an
    expression with side effects is evaluated. -/
inductive Program.Stirs (p : Program) : Part → Prop
  | expr {s : StmtId} {st : Stmt} {e : ExprId} : p.stmts.get? s = some st → e ∈ st.exprs →
    p.isImpure e = .ok true → Stirs p (.stmt s)
  | declare {s : StmtId} {v : VarId} {e : ExprId} :
    p.stmts.get? s = some (.declare v (some e)) → Stirs p (.stmt s)
  | ret {s : StmtId} {value : Option ExprId} : p.stmts.get? s = some (.ret value) →
    Stirs p (.stmt s)
  | block {s : StmtId} {ss : List StmtId} : p.stmts.get? s = some (.block ss) →
    Stirs p (.seq ss) → Stirs p (.stmt s)
  | branch {s t : StmtId} {condition : ExprId} {e : Option StmtId} :
    p.stmts.get? s = some (.branch condition t e) → Stirs p (.stmt t) → Stirs p (.seq e.toList) →
    Stirs p (.stmt s)
  | head {s : StmtId} {ss : List StmtId} : Stirs p (.stmt s) → Stirs p (.seq (s :: ss))
  | tail {s : StmtId} {ss : List StmtId} : Stirs p (.seq ss) → Stirs p (.seq (s :: ss))

namespace Program.Stirs

variable {s t : StmtId} {st : Stmt} {condition : ExprId}

theorem of_block (h : p.Stirs (.stmt s)) {ss : List StmtId}
    (hst : p.stmts.get? s = some (.block ss)) : p.Stirs (.seq ss) := by
  cases h with
  | expr hst' he =>
    cases hst.symm.trans hst'
    cases he
  | block hst' h =>
    cases hst.symm.trans hst'
    exact h
  | declare hst' | ret hst' | branch hst' => cases hst.symm.trans hst'

theorem of_straight (h : p.Stirs (.stmt s)) (hst : p.stmts.get? s = some st)
    (hstraight : st.isStraight = true) :
    (∃ e ∈ st.exprs, p.isImpure e = .ok true) ∨ ∃ v e, st = .declare v (some e) := by
  cases h with
  | expr hst' he himpure =>
    cases hst.symm.trans hst'
    exact .inl ⟨_, he, himpure⟩
  | declare hst' =>
    cases hst.symm.trans hst'
    exact .inr ⟨_, _, rfl⟩
  | block hst' | ret hst' | branch hst' =>
    cases hst.symm.trans hst'
    cases hstraight

theorem of_branch (h : p.Stirs (.stmt s)) {e : Option StmtId}
    (hst : p.stmts.get? s = some (.branch condition t e)) :
    p.isImpure condition = .ok true ∨ p.Stirs (.stmt t) ∧ p.Stirs (.seq e.toList) := by
  cases h with
  | expr hst' he himpure =>
    cases hst.symm.trans hst'
    exact .inl (List.mem_singleton.1 he ▸ himpure)
  | branch hst' hthen helse =>
    cases hst.symm.trans hst'
    exact .inr ⟨hthen, helse⟩
  | declare hst' | ret hst' | block hst' => cases hst.symm.trans hst'

/-- The body of a loop may be passed by. -/
theorem of_loop (h : p.Stirs (.stmt s)) (hst : p.stmts.get? s = some (.loop condition t)) :
    p.isImpure condition = .ok true := by
  cases h with
  | expr hst' he himpure =>
    cases hst.symm.trans hst'
    exact List.mem_singleton.1 he ▸ himpure
  | declare hst' | ret hst' | block hst' | branch hst' => cases hst.symm.trans hst'

end Program.Stirs

/-- On every way around a loop in the bodies, something is written or an expression with side
    effects is evaluated. -/
def Program.LoopsStir (p : Program) : Prop := ∀ b ∈ p.bodies.map Prod.snd, ∀ s condition t,
  p.Inside (.stmt b) (.stmt s) → p.stmts.get? s = some (.loop condition t) →
    p.isImpure condition = .ok true ∨ p.Stirs (.stmt t)

theorem Program.Lists.loopsStir_iff (h : p.Lists ls le) : p.LoopsStir ↔
    ∀ s ∈ ls, ∀ condition t, p.stmts.get? s = some (.loop condition t) →
      p.isImpure condition = .ok true ∨ p.Stirs (.stmt t) := by
  constructor
  · intro hloops s hs condition t hst
    obtain ⟨b, hb, hin⟩ := h.spans.exists_inside hs
    exact hloops b hb s condition t hin hst
  · intro hloops b hb s condition t hin hst
    exact hloops s (hin.listed h.spans (h.spans.mem_of_mem_roots hb)) condition t hst

/-! ### Side effects and operations -/

/-- An expression has side effects if something inside it has. -/
theorem Spans.isImpure_iff {e : ExprId} {l : List ExprId} (hp : p.InRange) (h : Spans p [e] l) :
    p.isImpure e = .ok true ↔
      ∃ o ∈ l, ∃ x, p.exprs.get? o = some x ∧ p.impureHead x = true := by
  rw [h.isImpure_eq hp, Except.ok.injEq, List.any_eq_true]
  constructor
  · rintro ⟨⟨o, x⟩, ho, hx⟩
    obtain ⟨ho, hget⟩ := Program.mem_entriesOf.1 ho
    exact ⟨o, ho, x, hget, hx⟩
  · rintro ⟨o, ho, x, hget, hx⟩
    exact ⟨(o, x), Program.mem_entriesOf.2 ⟨ho, hget⟩, hx⟩

/-- What is assigned to has no side effects itself. -/
theorem Program.impureHead_of_mem_targets {e t : ExprId} {x y : Expr} {ins : List ExprId}
    {own : List Operation} (h : p.emits e x = some (ins, own)) (ht : t ∈ x.targets)
    (hy : p.exprs.get? t = some y) : p.impureHead y = false := by
  have hparts : ∀ {u objects}, p.targetParts t = some (u, objects) → p.impureHead y = false := by
    intro u objects hparts
    rw [targetParts, hy] at hparts
    cases y with
    | var | field => rfl
    | _ => cases hparts
  cases x with
  | assign | compound | increment =>
    obtain rfl := List.mem_singleton.1 ht
    simp only [emits, Option.map_eq_some_iff] at h
    obtain ⟨⟨u, objects⟩, htarget, _⟩ := h
    exact hparts htarget
  | _ => cases ht

namespace Inlining

/-- The operation of an expression with side effects of its own changes what is known. -/
theorem exists_stirring_own (hp : p.InRange) {e : ExprId} {x : Expr} {ins : List ExprId}
    {own : List Operation} (hx : p.exprs.get? e = some x) (hown : p.emits e x = some (ins, own))
    (himpure : p.impureHead x = true) : ∃ o ∈ own, effect .declared p o.kind ≠ .ok .keep := by
  have hcall : ((∃ method receiver args, x = .call method receiver args) ∨ ∃ c, x = .newObject c) →
      effect .declared p (.call e) ≠ .ok .keep := by
    intro hcall
    rw [effect_call hp hx hcall, himpure]
    exact fun h => by cases h
  cases x with
  | assign =>
    simp only [Program.emits, Option.map_eq_some_iff] at hown
    obtain ⟨_, _, heq⟩ := hown
    cases heq
    exact ⟨_, List.mem_singleton_self _, effect_write_ne_keep p _ _⟩
  | compound | increment =>
    simp only [Program.emits, Option.map_eq_some_iff] at hown
    obtain ⟨_, _, heq⟩ := hown
    cases heq
    exact ⟨_, List.mem_singleton_self _, fun h => by cases h⟩
  | call method receiver args =>
    cases hown
    exact ⟨_, List.mem_singleton_self _, hcall (.inl ⟨method, receiver, args, rfl⟩)⟩
  | newObject c =>
    cases hown
    exact ⟨_, List.mem_singleton_self _, hcall (.inr ⟨c, rfl⟩)⟩
  | _ => cases himpure

/-- Where an expression with side effects is evaluated, there is an operation that changes what is
    known. -/
theorem exists_stirring (hp : p.InRange) {es all : List ExprId} {os : List Operation} {e : ExprId}
    (hos : p.Spells es os) (hall : Spans p es all) (he : e ∈ es)
    (himpure : p.isImpure e = .ok true) : ∃ o ∈ os, effect .declared p o.kind ≠ .ok .keep := by
  obtain ⟨l, hem⟩ := Emits.exists_of_spells hos
  obtain ⟨y, inner, hy, hinner, hsub⟩ := hall.exists_sublist (hall.mem_of_mem_roots he)
  have hspans : Spans p [e] (e :: inner) := by simpa using Spans.cons hy hinner .nil
  obtain ⟨o, ho, x, hx, himpure⟩ := (hspans.isImpure_iff hp).1 himpure
  rcases List.mem_append.1 ((hem.perm hall).mem_iff.1 (hsub.subset ho)) with ho | ho
  · obtain ⟨x', ins, own, hx', hown, hmem⟩ := hem.exists_emits ho
    cases hx.symm.trans hx'
    obtain ⟨op, hop, heffect⟩ := exists_stirring_own hp hx hown himpure
    exact ⟨op, hmem hop, heffect⟩
  · -- What is only assigned to has no side effects.
    obtain ⟨e', he', ht⟩ := List.mem_flatMap.1 ho
    obtain ⟨x', ins, own, hx', hown, _⟩ := hem.exists_emits he'
    rw [hx'] at ht
    rw [Program.impureHead_of_mem_targets hown ht hx] at himpure
    cases himpure

end Inlining

/-! ### After an edit -/

namespace Program.Edited

variable (h : p.Edited q r c a ls le la lc) (hp : p.InRange) (hl : p.Lists ls le)
include h hp hl

/-- What has side effects still has them with a copy in place of a read. -/
theorem isImpure {e : ExprId} (he : e ∈ le) (himpure : p.isImpure e = .ok true) :
    q.isImpure (redirect r c e) = .ok true := by
  obtain ⟨l, hspans, hsub⟩ := hl.spans.exists_spans he
  have hspans' := h.spans hspans fun o ho => hsub.subset ho
  obtain ⟨o, ho, x, hx, hhead⟩ := (hspans.isImpure_iff hp).1 himpure
  -- The read that is replaced has no side effects, so what has them is still there.
  have hor : o ≠ r := by
    rintro rfl
    obtain ⟨v, hv⟩ := h.var
    cases hv.symm.trans hx
    cases hhead
  refine (hspans'.isImpure_iff (h.inRange hp)).2
    ⟨o, mem_flatMap_inPlaceOf.2 (.inr ⟨ho, hor⟩), x.redirect r c, ?_, ?_⟩
  · rw [h.expr o (hsub.subset ho), hx]
    rfl
  · rw [Expr.redirect, Expr.impureHead_withOperands, h.impureHead_eq]
    exact hhead

theorem stirs {part : Part} (hstirs : p.Stirs part) (hpart : ∀ s ∈ part.stmts, s ∈ ls) :
    q.Stirs part := by
  have hstmt : ∀ {s st}, s ∈ ls → p.stmts.get? s = some st →
      q.stmts.get? s = some (st.redirect r c) := fun hs hst =>
    (h.stmt _ hs).trans (congrArg _ hst)
  have hinside : ∀ {s st}, s ∈ ls → p.stmts.get? s = some st → ∀ t ∈ st.children, t ∈ ls :=
    fun hs hst _ ht => hl.spans.mem_of_mem_children hs hst ht
  induction hstirs with
  | expr hst he himpure =>
    have hs := hpart _ (List.mem_singleton_self _)
    refine .expr (hstmt hs hst) ?_ (h.isImpure hp hl (hl.spans.mem_of_mem_exprs hs hst he) himpure)
    rw [Stmt.exprs_redirect]
    exact List.mem_map_of_mem he
  | declare hst => exact .declare (hstmt (hpart _ (List.mem_singleton_self _)) hst)
  | @ret s value hst =>
    have hs := hpart _ (List.mem_singleton_self _)
    cases value with
    | none => exact .ret (hstmt hs hst)
    | some e => exact .ret (hstmt hs hst)
  | block hst _ ih =>
    have hs := hpart _ (List.mem_singleton_self _)
    exact .block (hstmt hs hst) (ih (hinside hs hst))
  | branch hst _ _ ih₁ ih₂ =>
    have hs := hpart _ (List.mem_singleton_self _)
    refine .branch (hstmt hs hst) (ih₁ fun t ht => hinside hs hst t ?_)
      (ih₂ fun t ht => hinside hs hst t (List.mem_cons_of_mem _ ht))
    rw [List.mem_singleton.1 ht]
    exact List.mem_cons_self
  | head _ ih =>
    exact .head (ih fun t ht => hpart t (List.mem_singleton.1 ht ▸ List.mem_cons_self))
  | tail _ ih => exact .tail (ih fun t ht => hpart t (List.mem_cons_of_mem _ ht))

/-- Loops that stir still do with a copy in place of a read. -/
theorem loopsStir (hloops : p.LoopsStir) : q.LoopsStir := by
  rw [hl.loopsStir_iff] at hloops
  rw [(h.lists hl).loopsStir_iff]
  intro s hs condition t hst
  rw [h.stmt s hs, Option.map_eq_some_iff] at hst
  obtain ⟨st, hst, hredirect⟩ := hst
  cases st with
  | loop condition' t' =>
    cases hredirect
    refine (hloops s hs condition' t hst).imp (fun himpure => ?_) fun hstirs => ?_
    · exact h.isImpure hp hl (hl.spans.mem_of_mem_exprs hs hst (List.mem_singleton_self _)) himpure
    · refine h.stirs hp hl hstirs fun u hu => hl.spans.mem_of_mem_children hs hst ?_
      rw [List.mem_singleton.1 hu]
      exact List.mem_cons_self
  | declare v init => cases init <;> cases hredirect
  | ret value => cases value <;> cases hredirect
  | _ => cases hredirect

end Program.Edited

end Dataflow
