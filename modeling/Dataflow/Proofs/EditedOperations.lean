import Dataflow.Proofs.Edits
import Mathlib.Data.List.Flatten

/-!
# Operations after an edit

What putting a copy in place of a read does to the operations of expressions: the read
gives its place to the operations of the copy, and a value that is written follows
where it went.

* `Program.Lists.not_target`: an expression that is evaluated is not assigned to;
* `Operation.edit`: the operations that an operation gives its place to;
* `Program.Edited.emits`, `Program.Edited.spells`: the operations of expressions afterwards;
* `Program.Edited.inert`: the copy of an inert expression is inert.
-/

namespace Dataflow

theorem Expr.mem_operands_of_mem_targets {x : Expr} {t : ExprId} (h : t ∈ x.targets) :
    t ∈ x.operands := by
  cases x with
  | assign | compound | increment =>
    rw [targets, List.mem_singleton] at h
    rw [operands, h]
    exact List.mem_cons_self
  | _ => cases h

namespace Program

variable {p q : Program} {r c a : ExprId} {ls : List StmtId} {le la lc : List ExprId}

/-- What an expression assigns to has parts, if it has operations. -/
theorem exists_targetParts_of_emits {e t : ExprId} {x : Expr} {ins : List ExprId}
    {own : List Operation} (h : p.emits e x = some (ins, own)) (ht : t ∈ x.targets) :
    ∃ parts, p.targetParts t = some parts := by
  cases x with
  | assign target value | compound _ target value | increment _ target =>
    rw [Expr.targets, List.mem_singleton] at ht
    subst ht
    simp only [emits, Option.map_eq_some_iff] at h
    obtain ⟨parts, hparts, _⟩ := h
    exact ⟨parts, hparts⟩
  | _ => cases ht

/-- What an expression assigns to is a variable or a field, if it has operations. -/
theorem targets_of_emits {e t : ExprId} {x y : Expr} {ins : List ExprId} {own : List Operation}
    (h : p.emits e x = some (ins, own)) (ht : t ∈ x.targets) (hy : p.exprs.get? t = some y) :
    y.targets = [] := by
  obtain ⟨parts, hparts⟩ := exists_targetParts_of_emits h ht
  rw [targetParts, hy] at hparts
  cases y with
  | var | field => rfl
  | _ => cases hparts

/-- An expression that is evaluated for a statement in the bodies is assigned to by none. -/
theorem Lists.not_target (h : p.Lists ls le) {s : StmtId} {st : Stmt} (hs : s ∈ ls)
    (hst : p.stmts.get? s = some st) {l : List ExprId} {os : List Operation}
    (hem : Emits p st.exprs l os) (hr : r ∈ l) {e : ExprId} {x : Expr} (he : e ∈ le)
    (hx : p.exprs.get? e = some x) : r ∉ x.targets := by
  intro hmem
  have hop := Expr.mem_operands_of_mem_targets hmem
  obtain ⟨all, hw, hperm⟩ := h.spans.exists_walk
  have hnodup := hperm.nodup_iff.2 (nodup_pieces_iff.2 ⟨h.stmts_nodup, h.exprs_nodup⟩)
  obtain ⟨st', inner, own, below, hst', how, _, _, hsub⟩ := h.spans.exists_sublist hs
  rw [hst] at hst'
  cases hst'
  have hown : own.Sublist le := (List.sublist_append_left own below).trans hsub
  have hparts := hem.perm how
  have hholds : .expr r ∈ Walk.partsOf p (.expr e) := by
    rw [Walk.partsOf, parts, hx]
    exact List.mem_map_of_mem hop
  have hall : Piece.expr e ∈ all :=
    hperm.mem_iff.2 (List.mem_append_right _ (List.mem_map_of_mem he))
  -- What holds the expression is inside those that the statement owns.
  have hinside : e ∈ own := by
    have hrown : Piece.expr r ∈ own.map Piece.expr :=
      List.mem_map_of_mem (hparts.mem_iff.2 (List.mem_append_left _ hr))
    rcases List.mem_append.1 (how.walk.perm.mem_iff.1 hrown) with hroot | hpart
    · have hstmt : .expr r ∈ Walk.partsOf p (.stmt s) := by
        rw [Walk.partsOf, parts, hst]
        exact List.mem_append_left _ hroot
      have := hw.holder_unique hnodup hall
        (hperm.mem_iff.2 (List.mem_append_left _ (List.mem_map_of_mem hs))) hholds hstmt
      cases this
    · obtain ⟨z, hz, hrz⟩ := List.mem_flatMap.1 hpart
      obtain ⟨e', he', rfl⟩ := List.mem_map.1 hz
      have := hw.holder_unique hnodup hall
        (hperm.mem_iff.2 (List.mem_append_right _ (List.mem_map_of_mem (hown.subset he'))))
        hholds hrz
      cases this
      exact he'
  have hdisjoint := (List.nodup_append'.1 (hparts.nodup_iff.1 (h.exprs_nodup.sublist hown))).2.2
  rcases List.mem_append.1 (hparts.mem_iff.1 hinside) with hl | htarget
  · refine hdisjoint hr (List.mem_flatMap.2 ⟨e, hl, ?_⟩)
    rw [hx]
    exact hmem
  · -- A target of another assignment is no assignment itself.
    obtain ⟨o, ho, het⟩ := List.mem_flatMap.1 htarget
    obtain ⟨y, ins, own', hy, hown', _⟩ := hem.exists_emits ho
    rw [hy] at het
    rw [targets_of_emits hown' het hx] at hmem
    cases hmem

end Program

/-- An operation, what it refers to redirected from `r` to `c`. -/
def Operation.retarget (r c : ExprId) (o : Operation) : Operation :=
  { o with kind := o.kind.retarget r c }

/-- The operations that an operation gives its place to where `oc` are the operations of `c`,
    which is put in place of `r`. -/
def Operation.edit (r c : ExprId) (oc : List Operation) (o : Operation) : List Operation :=
  if o.expr = r then oc else [o.retarget r c]

namespace Program.Edited

variable {p q : Program} {r c a : ExprId} {ls : List StmtId} {le la lc : List ExprId}

theorem targetParts_eq (h : p.Edited q r c a ls le la lc) {t : ExprId} (ht : t ∈ le)
    {v : VarId} {objects : List ExprId} (hparts : p.targetParts t = some (v, objects)) :
    q.targetParts t = some (v, objects.map (redirect r c)) := by
  rw [targetParts] at hparts
  split at hparts
  · next u hx =>
    cases hparts
    rw [targetParts, h.expr t ht, hx]
    rfl
  · next object u hx =>
    cases hparts
    rw [targetParts, h.expr t ht, hx]
    rfl
  · cases hparts

/-- What an expression evaluates and does itself, after the edit. -/
theorem emits_redirect (h : p.Edited q r c a ls le la lc) {e : ExprId} {x : Expr}
    {ins : List ExprId} {own : List Operation} (hx : p.emits e x = some (ins, own)) (he : e ≠ r)
    (ht : ∀ t ∈ x.targets, t ∈ le ∧ t ≠ r) :
    q.emits e (x.redirect r c) =
      some (ins.map (redirect r c), own.map (Operation.retarget r c)) := by
  cases x with
  | int | bool | null | var | unary | binary | newArray | field =>
    cases hx
    rfl
  | newObject =>
    cases hx
    simp [Expr.redirect, Expr.withOperands, emits, Operation.retarget, NodeKind.retarget, he]
  | call m receiver args =>
    cases hx
    cases receiver <;> simp [Expr.redirect, Expr.operands, Expr.withOperands, emits,
      Operation.retarget, NodeKind.retarget, he]
  | assign t value | compound _ t value | increment _ t =>
    obtain ⟨htle, htr⟩ := ht t (List.mem_singleton_self t)
    have hself : redirect r c t = t := if_neg htr
    simp only [emits, Option.map_eq_some_iff] at hx
    obtain ⟨⟨v, objects⟩, hparts, heq⟩ := hx
    cases heq
    simp only [Expr.redirect, Expr.operands, Expr.withOperands, emits, List.map_cons, List.map_nil,
      hself, h.targetParts_eq htle hparts]
    simp [Operation.retarget, NodeKind.retarget, redirect]

/-- The operations of expressions after the edit: those of the copy stand where the read
    stood. -/
theorem emits (h : p.Edited q r c a ls le la lc) {oc : List Operation} (hc : Emits q [c] lc oc)
    {es l : List ExprId} {os : List Operation} (hem : Emits p es l os) (hl : ∀ e ∈ l, e ∈ le)
    (ht : ∀ e ∈ l, ∀ x, p.exprs.get? e = some x → ∀ t ∈ x.targets, t ∈ le ∧ t ≠ r) :
    Emits q (es.map (redirect r c)) (l.flatMap (inPlaceOf r lc))
      (os.flatMap (Operation.edit r c oc)) := by
  induction hem with
  | nil => exact .nil
  | @cons e x ins own es inner rest before after hx hown hinner _ ih₁ ih₂ =>
    rw [List.forall_mem_cons, List.forall_mem_append] at hl ht
    rw [List.map_cons, List.flatMap_cons, List.flatMap_append, List.flatMap_append,
      List.flatMap_append, redirect, inPlaceOf]
    by_cases he : e = r
    · obtain ⟨v, hv⟩ := h.var
      rw [he, hv] at hx
      cases hx
      cases hown
      cases hinner
      have hedit : [⟨NodeKind.read v, e⟩].flatMap (Operation.edit r c oc) = oc := by
        simp [Operation.edit, he]
      rw [if_pos he, if_pos he, hedit]
      exact hc.append (ih₂ hl.2.2 ht.2.2)
    · have hedit : own.flatMap (Operation.edit r c oc) = own.map (Operation.retarget r c) := by
        rcases own_eq_of_emits hown with rfl | ⟨kind, rfl⟩
        · rfl
        · simp [Operation.edit, he]
      rw [if_neg he, if_neg he, List.singleton_append, hedit]
      exact .cons ((h.expr e hl.1).trans (congrArg _ hx)) (h.emits_redirect hown he (ht.1 x hx))
        (ih₁ hl.2.1 ht.2.1) (ih₂ hl.2.2 ht.2.2)

/-- The same for the expressions of a statement. -/
theorem spells (h : p.Edited q r c a ls le la lc) (hp : p.Lists ls le) {oc : List Operation}
    (hc : Emits q [c] lc oc)
    (hr : ∀ e ∈ le, ∀ x, p.exprs.get? e = some x → r ∉ x.targets) {s : StmtId} {st : Stmt}
    (hs : s ∈ ls) (hst : p.stmts.get? s = some st) {os : List Operation}
    (hos : p.Spells st.exprs os) :
    q.Spells (st.redirect r c).exprs (os.flatMap (Operation.edit r c oc)) := by
  obtain ⟨st', _, own, below, hst', how, _, _, hsub⟩ := hp.spans.exists_sublist hs
  rw [hst] at hst'
  cases hst'
  have hown := (List.sublist_append_left own below).trans hsub
  obtain ⟨l, hl⟩ := Emits.exists_of_spells hos
  have hmem : ∀ e ∈ l, e ∈ own := fun e he =>
    (hl.perm how).mem_iff.2 (List.mem_append_left _ he)
  have hem := h.emits hc hl (fun e he => hown.subset (hmem e he)) fun e he x hx t ht =>
    ⟨hown.subset (how.mem_of_mem_operands (hmem e he) hx (Expr.mem_operands_of_mem_targets ht)),
      fun heq => hr e (hown.subset (hmem e he)) x hx (heq ▸ ht)⟩
  rw [Stmt.exprs_redirect]
  refine hem.spells ?_
  -- What is evaluated is part of what is inside the expressions, each thing once.
  have hspans := h.spans how fun e he => hown.subset he
  have hnodup := (h.lists hp).exprs_nodup.sublist (hown.flatMap (inPlaceOf r lc))
  have hlen := (hem.perm hspans).length_eq
  rw [List.length_append] at hlen
  have := hspans.length_le hnodup
  omega

theorem impureHead_eq (h : p.Edited q r c a ls le la lc) (x : Expr) :
    q.impureHead x = p.impureHead x :=
  impureHead_congr h.methods x

/-- The copy of an inert expression is inert. -/
theorem inert (h : p.Edited q r c a ls le la lc) (ha : p.Inert la) : q.Inert lc := by
  intro e he y hy
  obtain ⟨e', he', x, os, hx, hx', _⟩ := h.copies.exists_of_mem he
  rw [hy] at hx'
  cases hx'
  rw [Expr.impureHead_withOperands, Expr.isAllocation_withOperands, h.impureHead_eq]
  exact ha e' he' x hx

/-- The copy of an expression names the same variables. -/
theorem avoids (h : p.Edited q r c a ls le la lc) {v : VarId} (ha : p.Avoids la v) :
    q.Avoids lc v := by
  intro e he y hy
  obtain ⟨e', he', x, os, hx, hx', _⟩ := h.copies.exists_of_mem he
  rw [hy] at hx'
  cases hx'
  rw [Expr.namedVar_withOperands]
  exact ha e' he' x hx

/-- An edit by an inert expression leaves what is inert inert, and nothing else. -/
theorem inert_iff (h : p.Edited q r c a ls le la lc) (ha : p.Inert la) {l : List ExprId}
    (hl : ∀ e ∈ l, e ∈ le) : q.Inert (l.flatMap (inPlaceOf r lc)) ↔ p.Inert l := by
  have hhead : ∀ x : Expr, (q.impureHead (x.redirect r c) = false ∧
      (x.redirect r c).isAllocation = false) ↔ p.impureHead x = false ∧ x.isAllocation = false := by
    intro x
    rw [Expr.redirect, Expr.impureHead_withOperands, Expr.isAllocation_withOperands,
      h.impureHead_eq]
  constructor
  · intro hq e he x hx
    by_cases her : e = r
    · obtain ⟨v, hv⟩ := h.var
      rw [her, hv] at hx
      cases hx
      exact ⟨rfl, rfl⟩
    · refine (hhead x).1 (hq e ?_ _ (by rw [h.expr e (hl e he), hx]; rfl))
      exact mem_flatMap_inPlaceOf.2 (.inr ⟨he, her⟩)
  · intro hp e he y hy
    rcases mem_flatMap_inPlaceOf.1 he with ⟨_, he⟩ | ⟨he, _⟩
    · exact h.inert ha e he y hy
    · rw [h.expr e (hl e he), Option.map_eq_some_iff] at hy
      obtain ⟨x, hx, rfl⟩ := hy
      exact (hhead x).2 (hp e he x hx)

/-- An edit elsewhere changes no name. -/
theorem avoids_iff (h : p.Edited q r c a ls le la lc) {l : List ExprId} (hl : ∀ e ∈ l, e ∈ le)
    (v : VarId) : q.Avoids l v ↔ p.Avoids l v := by
  constructor
  · intro hq e he x hx
    have := hq e he (x.redirect r c) (by rw [h.expr e (hl e he), hx]; rfl)
    rwa [Expr.redirect, Expr.namedVar_withOperands] at this
  · intro hp e he y hy
    rw [h.expr e (hl e he), Option.map_eq_some_iff] at hy
    obtain ⟨x, hx, rfl⟩ := hy
    rw [Expr.redirect, Expr.namedVar_withOperands]
    exact hp e he x hx

/-- A variable that is named elsewhere than in the read that is replaced is named afterwards. -/
theorem not_avoids (h : p.Edited q r c a ls le la lc) {l : List ExprId} (hl : ∀ e ∈ l, e ∈ le)
    {e : ExprId} {x : Expr} {v : VarId} (he : e ∈ l) (her : e ≠ r) (hx : p.exprs.get? e = some x)
    (hv : x.namedVar = some v) : ¬q.Avoids (l.flatMap (inPlaceOf r lc)) v := by
  intro havoids
  refine havoids e (mem_flatMap_inPlaceOf.2 (.inr ⟨he, her⟩)) (x.redirect r c) ?_ ?_
  · rw [h.expr e (hl e he), hx]
    rfl
  · rw [Expr.redirect, Expr.namedVar_withOperands, hv]

end Program.Edited

end Dataflow
