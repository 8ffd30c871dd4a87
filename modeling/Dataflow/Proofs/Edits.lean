import Dataflow.Proofs.Substitution

/-!
# Putting a copy in place of a read

One edit of a tree program: a variable is read at one place, and a copy of another
expression is put there. Where the bodies lead, every slot that held the read holds the
copy; there is one such slot, so nothing else changes.

* `Program.Edited`: what the edit does;
* `Program.IsTree.exists_edit`: cloning and replacing do it, with one substitution;
* `Program.Edited.lists`: everything in the bodies afterwards;
* `Program.Edited.isTree`: the program is a tree program again.
-/

namespace Dataflow

/-- The program `q` has a copy `c` of the expression `a` where `p` has `r`, which reads a
    variable. Here `ls` and `le` list everything in the bodies of `p`, `la` everything inside
    `a` and `lc` everything inside `c`. -/
structure Program.Edited (p q : Program) (r c a : ExprId) (ls : List StmtId)
    (le la lc : List ExprId) : Prop where
  vars : q.vars = p.vars
  methods : q.methods = p.methods
  stmts_size : q.stmts.size = p.stmts.size
  exprs_size : p.exprs.size ≤ q.exprs.size
  mem : r ∈ le
  var : ∃ v, p.exprs.get? r = some (.var v)
  stmt : ∀ t ∈ ls, q.stmts.get? t = (p.stmts.get? t).map (Stmt.redirect r c)
  expr : ∀ e ∈ le, q.exprs.get? e = (p.exprs.get? e).map (Expr.redirect r c)
  stmt_else : ∀ t, t ∉ ls → q.stmts.get? t = p.stmts.get? t
  expr_else : ∀ e : ExprId, e.index < p.exprs.size → e ∉ le → q.exprs.get? e = p.exprs.get? e
  copies : Copies p q [a] la [c] lc
  nodup : lc.Nodup
  fresh : ∀ e : ExprId, e ∈ lc ↔ p.exprs.size ≤ e.index ∧ e.index < q.exprs.size

section Redirect

variable {r c : ExprId}

theorem map_redirect_of_not_mem {es : List ExprId} (h : r ∉ es) : es.map (redirect r c) = es := by
  refine (List.map_congr_left fun e he => ?_).trans (List.map_id es)
  exact if_neg (ne_of_mem_of_not_mem he h)

theorem Expr.withOperands_operands (x : Expr) : x.withOperands x.operands = x := by
  cases x with
  | call method receiver args => cases receiver <;> rfl
  | _ => rfl

theorem Stmt.withExprs_exprs (st : Stmt) : st.withExprs st.exprs = st := by
  cases st with
  | declare v init => cases init <;> rfl
  | ret value => cases value <;> rfl
  | _ => rfl

theorem Expr.redirect_of_not_mem {x : Expr} (h : r ∉ x.operands) : x.redirect r c = x := by
  rw [Expr.redirect, map_redirect_of_not_mem h, Expr.withOperands_operands]

theorem Stmt.redirect_of_not_mem {st : Stmt} (h : r ∉ st.exprs) : st.redirect r c = st := by
  rw [Stmt.redirect, map_redirect_of_not_mem h, Stmt.withExprs_exprs]

end Redirect

namespace Program

variable {p q : Program} {r c a : ExprId} {ls : List StmtId} {le la lc : List ExprId}

/-- An expression in the bodies is held by one listed piece: what holds it beneath one of the
    statements is all that holds it. -/
theorem Lists.holder_mem (h : p.Lists ls le) {t : StmtId} {lt : List StmtId} {et : List ExprId}
    (hspans : StmtSpans p [t] lt et) (hlt : lt.Sublist ls) (het : et.Sublist le) (hr : r ∈ et)
    {y : Piece} (hy : y ∈ ls.map Piece.stmt ++ le.map Piece.expr)
    (hry : .expr r ∈ Walk.partsOf p y) : y ∈ lt.map Piece.stmt ++ et.map Piece.expr := by
  obtain ⟨all, hw, hperm⟩ := h.spans.exists_walk
  obtain ⟨inner, hw', hperm'⟩ := hspans.exists_walk
  have hnodup := hperm.nodup_iff.2 (nodup_pieces_iff.2 ⟨h.stmts_nodup, h.exprs_nodup⟩)
  have hmem : Piece.expr r ∈ inner :=
    hperm'.mem_iff.2 (List.mem_append_right _ (List.mem_map_of_mem hr))
  obtain ⟨z, hz, hrz⟩ : ∃ z ∈ inner, .expr r ∈ Walk.partsOf p z := by
    have := hw'.perm.mem_iff.1 hmem
    simpa using this
  have hsub : inner ⊆ all := fun x hx =>
    hperm.mem_iff.2 (((hlt.map _).append (het.map _)).subset (hperm'.mem_iff.1 hx))
  rw [hw.holder_unique hnodup (hperm.mem_iff.2 hy) (hsub hz) hry hrz]
  exact hperm'.mem_iff.1 hz

/-- Cloning an expression and putting the copy where a variable is read beneath a statement:
    there is one slot to redirect. -/
theorem Lists.exists_edit (h : p.Lists ls le) {t : StmtId} {lt : List StmtId} {et : List ExprId}
    (hspans : StmtSpans p [t] lt et) (hlt : lt.Sublist ls) (het : et.Sublist le) (hr : r ∈ et)
    {v : VarId} (hv : p.exprs.get? r = some (.var v)) (ha : Spans p [a] la) :
    ∃ c lc p₁ q, p.cloneExpr a = .ok (c, p₁) ∧ p₁.replaceExpr t r c = .ok (1, q) ∧
      p.Edited q r c a ls le la lc := by
  obtain ⟨c, lc, p₁, hclone, hcopies, hgrown⟩ := ha.exists_cloneExpr
  have hold : ∀ e ∈ le, p₁.exprs.get? e = p.exprs.get? e := fun e he =>
    hgrown.old e (h.spans.expr_index_lt he)
  have hspans₁ := hspans.congr (fun t _ => congrArg (·.get? t) hgrown.stmts)
    fun e he => hold e (het.subset he)
  have hnodup := h.exprs_nodup.sublist het
  have hnodup' := h.stmts_nodup.sublist hlt
  obtain ⟨q, hreplace, hred⟩ := hspans₁.exists_replaceExpr (c := c) hnodup' hnodup
    ((hold r (het.subset hr)).trans hv)
    (Arena.length_le_size hnodup' fun _ ht => hspans₁.stmt_index_lt ht)
    (Arena.length_le_size hnodup fun _ he => hspans₁.expr_index_lt he)
  rw [List.count_eq_one_of_mem hnodup hr] at hreplace
  -- Pieces elsewhere in the bodies do not hold the read.
  have hstmt : ∀ s ∈ ls, s ∉ lt → (p.stmts.get? s).map (Stmt.redirect r c) = p.stmts.get? s := by
    intro s hs hnot
    obtain ⟨st, hst⟩ := Arena.exists_get?_of_lt (h.spans.stmt_index_lt hs)
    rw [hst, Option.map_some, Stmt.redirect_of_not_mem fun hmem => hnot ?_]
    have := h.holder_mem hspans hlt het hr (List.mem_append_left _ (List.mem_map_of_mem hs))
      (by rw [Walk.partsOf, parts, hst]; exact List.mem_append_left _ (List.mem_map_of_mem hmem))
    simpa using this
  have hexpr : ∀ e ∈ le, e ∉ et → (p.exprs.get? e).map (Expr.redirect r c) = p.exprs.get? e := by
    intro e he hnot
    obtain ⟨x, hx⟩ := Arena.exists_get?_of_lt (h.spans.expr_index_lt he)
    rw [hx, Option.map_some, Expr.redirect_of_not_mem fun hmem => hnot ?_]
    have := h.holder_mem hspans hlt het hr (List.mem_append_right _ (List.mem_map_of_mem he))
      (by rw [Walk.partsOf, parts, hx]; exact List.mem_map_of_mem hmem)
    simpa using this
  refine ⟨c, lc, p₁, q, hclone, hreplace, ?_⟩
  exact {
    vars := hred.vars.trans hgrown.vars
    methods := hred.methods.trans hgrown.methods
    stmts_size := hred.stmts_size.trans (congrArg Arena.size hgrown.stmts)
    exprs_size := Nat.le_trans hgrown.le (Nat.le_of_eq hred.exprs_size.symm)
    mem := het.subset hr
    var := ⟨v, hv⟩
    stmt := fun s hs => by
      rw [hred.stmt, hgrown.stmts]
      split
      · rfl
      · next hnot => exact (hstmt s hs hnot).symm
    expr := fun e he => by
      rw [hred.expr, hold e he]
      split
      · rfl
      · next hnot => exact (hexpr e he hnot).symm
    stmt_else := fun s hs => by
      rw [hred.stmt, if_neg fun hmem => hs (hlt.subset hmem), hgrown.stmts]
    expr_else := fun e he hnot => by
      rw [hred.expr, if_neg fun hmem => hnot (het.subset hmem), hgrown.old e he]
    copies := hcopies.congr fun e he => by
      have hfresh := ((hgrown.mem_iff e).1 he).1
      rw [hred.expr, if_neg fun hmem => Nat.not_lt.2 hfresh (hspans.expr_index_lt hmem)]
    nodup := hgrown.nodup
    fresh := fun e => by rw [hgrown.mem_iff, ← hred.exprs_size] }

/-! ### Everything in the bodies after an edit -/

namespace Edited

theorem stmt_or (h : p.Edited q r c a ls le la lc) (t : StmtId) :
    q.stmts.get? t = p.stmts.get? t ∨ q.stmts.get? t = (p.stmts.get? t).map (Stmt.redirect r c) := by
  by_cases ht : t ∈ ls
  · exact .inr (h.stmt t ht)
  · exact .inl (h.stmt_else t ht)

theorem expr_or (h : p.Edited q r c a ls le la lc) (e : ExprId) (he : e.index < p.exprs.size) :
    q.exprs.get? e = p.exprs.get? e ∨ q.exprs.get? e = (p.exprs.get? e).map (Expr.redirect r c) := by
  by_cases hmem : e ∈ le
  · exact .inr (h.expr e hmem)
  · exact .inl (h.expr_else e he hmem)

/-- An expression afterwards is one from before, its slots redirected or not, or part of the copy. -/
theorem expr_cases (h : p.Edited q r c a ls le la lc) {e : ExprId} {y : Expr}
    (hy : q.exprs.get? e = some y) :
    (∃ x, p.exprs.get? e = some x ∧ (y = x ∨ y = x.redirect r c)) ∨ e ∈ lc := by
  by_cases he : e.index < p.exprs.size
  · obtain ⟨x, hx⟩ := Arena.exists_get?_of_lt he
    refine .inl ⟨x, hx, ?_⟩
    rcases h.expr_or e he with heq | heq
    · exact .inl (Option.some.inj (hy.symm.trans (heq.trans hx)))
    · rw [hx] at heq
      exact .inr (Option.some.inj (hy.symm.trans heq))
  · exact .inr ((h.fresh e).2 ⟨Nat.not_lt.1 he, Arena.get?_eq_some_lt hy⟩)

theorem spans (h : p.Edited q r c a ls le la lc) {es l : List ExprId} (hs : Spans p es l)
    (hl : ∀ e ∈ l, e ∈ le) : Spans q (es.map (redirect r c)) (l.flatMap (inPlaceOf r lc)) := by
  induction hs with
  | nil => exact .nil
  | @cons e x es inner rest hx hinner _ ih₁ ih₂ =>
    rw [List.forall_mem_cons, List.forall_mem_append] at hl
    rw [List.map_cons, List.flatMap_cons, List.flatMap_append, redirect, inPlaceOf]
    by_cases he : e = r
    · obtain ⟨v, hv⟩ := h.var
      rw [he, hv] at hx
      cases hx
      cases hinner
      rw [if_pos he, if_pos he]
      exact h.copies.spans.append (ih₂ hl.2.2)
    · rw [if_neg he, if_neg he, List.singleton_append]
      refine .cons ((h.expr e hl.1).trans (congrArg _ hx)) ?_ (ih₂ hl.2.2)
      rw [Expr.operands_redirect]
      exact ih₁ hl.2.1

theorem stmtSpans (h : p.Edited q r c a ls le la lc) {ss ls' : List StmtId} {le' : List ExprId}
    (hs : StmtSpans p ss ls' le') (hls : ∀ s ∈ ls', s ∈ ls) (hle : ∀ e ∈ le', e ∈ le) :
    StmtSpans q ss ls' (le'.flatMap (inPlaceOf r lc)) := by
  induction hs with
  | nil => exact .nil
  | @cons s st ss inner rest own below others hst how _ _ ih₁ ih₂ =>
    rw [List.forall_mem_cons, List.forall_mem_append] at hls
    rw [List.forall_mem_append, List.forall_mem_append] at hle
    rw [List.flatMap_append, List.flatMap_append]
    refine .cons ((h.stmt s hls.1).trans (congrArg _ hst)) ?_ ?_ (ih₂ hls.2.2 hle.2.2)
    · rw [Stmt.exprs_redirect]
      exact h.spans how hle.1
    · rw [Stmt.children_redirect]
      exact ih₁ hls.2.1 hle.2.1

theorem bodies_eq (h : p.Edited q r c a ls le la lc) : q.bodies = p.bodies := by
  rw [bodies, bodies, h.methods]

/-- Everything in the bodies afterwards: what the copy is made of stands where the read
    stood. -/
theorem lists (h : p.Edited q r c a ls le la lc) (hp : p.Lists ls le) :
    q.Lists ls (le.flatMap (inPlaceOf r lc)) where
  spans := by
    rw [h.bodies_eq]
    exact h.stmtSpans hp.spans (fun _ hs => hs) fun _ he => he
  stmts_nodup := hp.stmts_nodup
  exprs_nodup := by
    have hfresh : ∀ e ∈ le, e ∉ lc := fun e he hc =>
      Nat.not_lt.2 ((h.fresh e).1 hc).1 (hp.spans.expr_index_lt he)
    exact nodup_flatMap_inPlaceOf hp.exprs_nodup h.nodup fun e hc he => hfresh e he hc

/-! ### Tree programs after an edit -/

/-- Every expression afterwards is one from before, up to its operands. -/
theorem exists_withOperands (h : p.Edited q r c a ls le la lc) (hp : p.InRange) {e : ExprId}
    {y : Expr} (hy : q.exprs.get? e = some y) :
    ∃ e' x os, p.exprs.get? e' = some x ∧ y = x.withOperands os ∧
      ∀ o ∈ y.operands, o.index < q.exprs.size := by
  have hc : c.index < q.exprs.size := h.copies.spans.index_lt
    (h.copies.spans.mem_of_mem_roots (List.mem_singleton_self c))
  have hold : ∀ x, p.exprs.get? e = some x → ∀ o ∈ x.operands, o.index < q.exprs.size :=
    fun x hx o ho => Nat.lt_of_lt_of_le (hp.operands e x hx o ho) h.exprs_size
  rcases h.expr_cases hy with ⟨x, hx, rfl | rfl⟩ | he
  · exact ⟨e, y, _, hx, y.withOperands_operands.symm, hold y hx⟩
  · refine ⟨e, x, _, hx, rfl, fun o ho => ?_⟩
    rw [Expr.operands_redirect, List.mem_map] at ho
    obtain ⟨o', ho', rfl⟩ := ho
    rw [redirect]
    split
    · exact hc
    · exact hold x hx o' ho'
  · obtain ⟨e', _, x, os, hx, hx', hlen, hos⟩ := h.copies.exists_of_mem he
    rw [hy] at hx'
    cases hx'
    rw [Expr.operands_withOperands hlen]
    exact ⟨e', x, os, hx, rfl, fun o ho => h.copies.spans.index_lt (hos o ho)⟩

theorem inRange (h : p.Edited q r c a ls le la lc) (hp : p.InRange) : q.InRange := by
  have hstmt : ∀ t st', q.stmts.get? t = some st' → ∃ st, p.stmts.get? t = some st ∧
      (st' = st ∨ st' = st.redirect r c) := by
    intro t st' hst'
    rcases h.stmt_or t with heq | heq
    · exact ⟨st', heq.symm.trans hst', .inl rfl⟩
    · rw [heq, Option.map_eq_some_iff] at hst'
      obtain ⟨st, hst, rfl⟩ := hst'
      exact ⟨st, hst, .inr rfl⟩
  have hc : c.index < q.exprs.size := h.copies.spans.index_lt
    (h.copies.spans.mem_of_mem_roots (List.mem_singleton_self c))
  exact {
    params := by
      rw [h.methods, h.vars]
      exact hp.params
    body := by
      rw [h.methods, h.stmts_size]
      exact hp.body
    children := by
      intro t st' hst' k hk
      obtain ⟨st, hst, rfl | rfl⟩ := hstmt t st' hst'
      · rw [h.stmts_size]
        exact hp.children t _ hst k hk
      · rw [Stmt.children_redirect] at hk
        rw [h.stmts_size]
        exact hp.children t st hst k hk
    exprs := by
      intro t st' hst' e he
      obtain ⟨st, hst, rfl | rfl⟩ := hstmt t st' hst'
      · exact Nat.lt_of_lt_of_le (hp.exprs t _ hst e he) h.exprs_size
      · rw [Stmt.exprs_redirect, List.mem_map] at he
        obtain ⟨e', he', rfl⟩ := he
        rw [redirect]
        split
        · exact hc
        · exact Nat.lt_of_lt_of_le (hp.exprs t st hst e' he') h.exprs_size
    declared := by
      intro t v init hst'
      rw [h.vars]
      obtain ⟨st, hst, heq | heq⟩ := hstmt t _ hst'
      · exact hp.declared t v init (heq ▸ hst)
      · obtain ⟨init', rfl⟩ := Stmt.exists_declare_of_withExprs heq.symm
        exact hp.declared t v init' hst
    operands := by
      intro e y hy
      obtain ⟨_, _, _, _, _, hlt⟩ := h.exists_withOperands hp hy
      exact hlt
    named := by
      intro e y v hy hv
      obtain ⟨e', x, os, hx, rfl, _⟩ := h.exists_withOperands hp hy
      rw [Expr.namedVar_withOperands] at hv
      rw [h.vars]
      exact hp.named e' x v hx hv
    callee := by
      intro e m receiver args hy
      obtain ⟨e', x, os, hx, heq, _⟩ := h.exists_withOperands hp hy
      obtain ⟨receiver', args', rfl⟩ := Expr.exists_call_of_withOperands heq.symm
      rw [h.methods]
      exact hp.callee e' m receiver' args' hx }

/-- The program is a tree program again. -/
theorem isTree (h : p.Edited q r c a ls le la lc) (hp : p.IsTree) (hl : p.Lists ls le) :
    q.IsTree where
  inRange := h.inRange hp.inRange
  unique _ _ _ ha hb hax hbx := (h.lists hl).isForest.unique ha hb hax hbx
  fields e object v hy := by
    obtain ⟨e', x, os, hx, heq, _⟩ := h.exists_withOperands hp.inRange hy
    obtain ⟨object', rfl⟩ := Expr.exists_field_of_withOperands heq.symm
    rw [h.vars]
    exact hp.fields e' object' v hx

end Edited

end Program

end Dataflow
