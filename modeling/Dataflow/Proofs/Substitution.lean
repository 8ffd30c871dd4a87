import Dataflow.Proofs.Copies

/-!
# Substituting an expression

`Program.replaceExpr` redirects the slots beneath a statement that hold one expression to
another one. Where nothing beneath the statement is shared, it redirects every slot there
once, and leaves everything else alone.

* `redirect`, `Expr.redirect`, `Stmt.redirect`: slots that held one expression hold another one;
* `Substitution.Redirected`: what a substitution has done so far;
* `StmtSpans.exists_replaceExpr`: what it does to the tree beneath a statement.
-/

namespace Dataflow

/-- The content of a slot, redirected from `r` to `c`. -/
def redirect (r c e : ExprId) : ExprId := if e = r then c else e

/-- An expression, its operand slots redirected from `r` to `c`. -/
def Expr.redirect (r c : ExprId) (x : Expr) : Expr :=
  x.withOperands (x.operands.map (Dataflow.redirect r c))

namespace Stmt

/-- The statement with other expressions of its own. -/
def withExprs : Stmt → List ExprId → Stmt
  | declare v (some _), [e] => declare v (some e)
  | expr _, [e] => expr e
  | branch _ thenStmt elseStmt, [e] => branch e thenStmt elseStmt
  | loop _ body, [e] => loop e body
  | ret (some _), [e] => ret (some e)
  | st, _ => st

/-- A statement, the slots of its own expressions redirected from `r` to `c`. -/
def redirect (r c : ExprId) (st : Stmt) : Stmt :=
  st.withExprs (st.exprs.map (Dataflow.redirect r c))

variable {st : Stmt} {es : List ExprId}

/-- Changing the expressions one by one, and putting the new ones in place. -/
theorem mapExprs_eq {m : Type → Type} [Monad m] [LawfulMonad m] (f : ExprId → m ExprId)
    (st : Stmt) : st.mapExprs f = st.exprs.mapM f >>= fun es => pure (st.withExprs es) := by
  cases st with
  | declare v init => cases init <;> simp [mapExprs, exprs, withExprs]
  | ret value => cases value <;> simp [mapExprs, exprs, withExprs]
  | _ => simp [mapExprs, exprs, withExprs]

/-- A statement owns one expression at most. -/
theorem exprs_eq (st : Stmt) : st.exprs = [] ∨ ∃ e, st.exprs = [e] := by
  cases st with
  | block => exact .inl rfl
  | expr e | branch e | loop e => exact .inr ⟨e, rfl⟩
  | declare _ init =>
    cases init with
    | none => exact .inl rfl
    | some e => exact .inr ⟨e, rfl⟩
  | ret value =>
    cases value with
    | none => exact .inl rfl
    | some e => exact .inr ⟨e, rfl⟩

@[simp] theorem children_withExprs : (st.withExprs es).children = st.children := by
  fun_cases withExprs st es <;> rfl

theorem exprs_withExprs (h : es.length = st.exprs.length) : (st.withExprs es).exprs = es := by
  cases st with
  | block => exact (List.length_eq_zero_iff.1 h).symm
  | expr | branch | loop =>
    obtain ⟨e, rfl⟩ := List.length_eq_one_iff.1 h
    rfl
  | declare _ init =>
    cases init with
    | none => exact (List.length_eq_zero_iff.1 h).symm
    | some =>
      obtain ⟨e, rfl⟩ := List.length_eq_one_iff.1 h
      rfl
  | ret value =>
    cases value with
    | none => exact (List.length_eq_zero_iff.1 h).symm
    | some =>
      obtain ⟨e, rfl⟩ := List.length_eq_one_iff.1 h
      rfl

theorem exists_declare_of_withExprs {v : VarId} {init : Option ExprId}
    (h : st.withExprs es = declare v init) : ∃ init', st = declare v init' := by
  revert h
  fun_cases withExprs st es <;> intro h <;> cases h <;> exact ⟨_, rfl⟩

end Stmt

variable {r c : ExprId}

@[simp] theorem Expr.operands_redirect (x : Expr) :
    (x.redirect r c).operands = x.operands.map (Dataflow.redirect r c) :=
  operands_withOperands (List.length_map _)

@[simp] theorem Stmt.exprs_redirect (st : Stmt) :
    (st.redirect r c).exprs = st.exprs.map (Dataflow.redirect r c) :=
  exprs_withExprs (List.length_map _)

@[simp] theorem Stmt.children_redirect (st : Stmt) : (st.redirect r c).children = st.children :=
  children_withExprs

/-- What redirecting the slots of some statements and expressions has done. -/
structure Program.Substitution.Redirected (r c : ExprId) (ls : List StmtId) (le : List ExprId)
    (s s' : Program.Substitution) : Prop where
  count : s'.count = s.count + le.count r
  vars : s'.program.vars = s.program.vars
  methods : s'.program.methods = s.program.methods
  stmts_size : s'.program.stmts.size = s.program.stmts.size
  exprs_size : s'.program.exprs.size = s.program.exprs.size
  stmt : ∀ t, s'.program.stmts.get? t =
    if t ∈ ls then (s.program.stmts.get? t).map (Stmt.redirect r c) else s.program.stmts.get? t
  expr : ∀ e, s'.program.exprs.get? e =
    if e ∈ le then (s.program.exprs.get? e).map (Expr.redirect r c) else s.program.exprs.get? e

namespace Program

open Substitution

variable {s s₁ s₂ : Substitution} {ls ls₁ ls₂ : List StmtId} {le le₁ le₂ : List ExprId}

theorem Substitution.Redirected.refl (s : Substitution) : Redirected r c [] [] s s where
  count := rfl
  vars := rfl
  methods := rfl
  stmts_size := rfl
  exprs_size := rfl
  stmt _ := by simp
  expr _ := by simp

theorem Substitution.Redirected.trans (h₁ : Redirected r c ls₁ le₁ s s₁)
    (h₂ : Redirected r c ls₂ le₂ s₁ s₂) (hls : ls₁.Disjoint ls₂) (hle : le₁.Disjoint le₂) :
    Redirected r c (ls₁ ++ ls₂) (le₁ ++ le₂) s s₂ where
  count := by rw [h₂.count, h₁.count, List.count_append, Nat.add_assoc]
  vars := h₂.vars.trans h₁.vars
  methods := h₂.methods.trans h₁.methods
  stmts_size := h₂.stmts_size.trans h₁.stmts_size
  exprs_size := h₂.exprs_size.trans h₁.exprs_size
  stmt t := by
    rw [h₂.stmt, h₁.stmt]
    by_cases h : t ∈ ls₁
    · simp [h, show t ∉ ls₂ from fun h' => hls h h']
    · simp [h]
  expr e := by
    rw [h₂.expr, h₁.expr]
    by_cases h : e ∈ le₁
    · simp [h, show e ∉ le₂ from fun h' => hle h h']
    · simp [h]

/-- A slot that holds what is replaced. -/
theorem substituteSlot_self (inside : ExprId → StateT Substitution Run Unit) :
    (substituteSlot r c inside r).run s = .ok (c, { s with count := s.count + 1 }) := by
  rw [substituteSlot, if_pos rfl]
  rfl

theorem Substitution.Redirected.countSelf {v : VarId} (hr : s.program.exprs.get? r = some (.var v)) :
    Redirected r c [] [r] s { s with count := s.count + 1 } where
  count := by rw [List.count_singleton_self]
  vars := rfl
  methods := rfl
  stmts_size := rfl
  exprs_size := rfl
  stmt _ := by simp
  expr e := by
    split
    · next h => rw [List.mem_singleton.1 h, hr]; rfl
    · rfl

/-- Any other slot. -/
theorem substituteSlot_ne {inside : ExprId → StateT Substitution Run Unit} {e : ExprId}
    (he : e ≠ r) (hin : (inside e).run s = .ok ((), s₁)) :
    (substituteSlot r c inside e).run s = .ok (e, s₁) := by
  rw [substituteSlot, if_neg he]
  exact Run.bind_eq_ok.2 ⟨_, hin, rfl⟩

/-- One level of substitution in an expression: its slots are redirected, and it is written. -/
theorem substituteExprStep_eq_ok {self : ExprId → StateT Substitution Run Unit} {e : ExprId}
    {x : Expr} {os : List ExprId} (hx : s.program.exprs.get? e = some x)
    (hos : (x.operands.mapM (substituteSlot r c self)).run s = .ok (os, s₁))
    (he : e.index < s₁.program.exprs.size) :
    (substituteExprStep r c self e).run s = .ok ((), { s₁ with
      program.exprs := s₁.program.exprs.modify e fun _ => x.withOperands os }) := by
  have hget : (liftM (s.program.exprs.get e) : StateT Substitution Run Expr).run s = .ok (x, s) :=
    Run.bind_eq_ok.2 ⟨x, Arena.get_eq_ok_iff.2 hx, rfl⟩
  have hmap : (x.mapOperands (substituteSlot r c self)).run s = .ok (x.withOperands os, s₁) := by
    rw [Expr.mapOperands_eq]
    exact Run.bind_eq_ok.2 ⟨(os, s₁), hos, rfl⟩
  have hset : s₁.program.exprs.set e (x.withOperands os) =
      .ok (s₁.program.exprs.modify e fun _ => x.withOperands os) := if_pos he
  have hlift : (liftM (s₁.program.exprs.set e (x.withOperands os)) :
      StateT Substitution Run _).run s₁ =
        .ok (s₁.program.exprs.modify e fun _ => x.withOperands os, s₁) :=
    Run.bind_eq_ok.2 ⟨_, hset, rfl⟩
  exact Run.bind_eq_ok.2 ⟨_, hget, Run.bind_eq_ok.2 ⟨_, hmap, Run.bind_eq_ok.2 ⟨_, hlift, rfl⟩⟩⟩

/-- Redirecting the slots of an expression, once those inside it are. -/
theorem Substitution.Redirected.writeExpr {e : ExprId} {x : Expr}
    (h : Redirected r c [] le s s₁) (hx : s.program.exprs.get? e = some x) (he : e ∉ le)
    (hr : e ≠ r) : Redirected r c [] (e :: le) s { s₁ with
      program.exprs := s₁.program.exprs.modify e fun _ => x.redirect r c } where
  count := by rw [List.count_cons_of_ne hr]; exact h.count
  vars := h.vars
  methods := h.methods
  stmts_size := h.stmts_size
  exprs_size := (Arena.size_modify _ _ _).trans h.exprs_size
  stmt := h.stmt
  expr e' := by
    rw [Arena.get?_modify, h.expr]
    by_cases heq : e = e'
    · subst heq
      simp [he, hx]
    · simp [heq, Ne.symm heq]

end Program

section Tree

open Program Program.Substitution

variable {p : Program} {es l le : List ExprId} {ss ls : List StmtId} {s : Substitution} {v : VarId}

/-- Substitution in expressions that share nothing redirects every slot inside them. -/
theorem Spans.exists_substitutes (h : Spans p es l) (hl : l.Nodup)
    (hr : p.exprs.get? r = some (.var v)) {depth : Nat} (hdepth : l.length ≤ depth)
    (hs : ∀ e ∈ l, s.program.exprs.get? e = p.exprs.get? e) :
    ∃ s', (es.mapM (substituteSlot r c
        (unroll (throw .endless) (substituteExprStep r c) depth))).run s =
          .ok (es.map (redirect r c), s') ∧ Redirected r c [] l s s' := by
  induction h generalizing depth s with
  | nil => exact ⟨s, rfl, .refl s⟩
  | @cons e x es inner rest hx hinner _ ih₁ ih₂ =>
    simp only [List.length_cons, List.length_append] at hdepth
    rw [List.forall_mem_cons, List.forall_mem_append] at hs
    rw [List.nodup_cons, List.mem_append, List.nodup_append'] at hl
    obtain ⟨hmem, hnodup₁, hnodup₂, hdisjoint⟩ := hl
    -- The first slot, with everything inside it.
    have hfirst : ∃ s₁, (substituteSlot r c
        (unroll (throw .endless) (substituteExprStep r c) depth) e).run s =
          .ok (redirect r c e, s₁) ∧ Redirected r c [] (e :: inner) s s₁ := by
      by_cases he : e = r
      · subst he
        rw [hr] at hx
        cases hx
        cases hinner
        refine ⟨{ s with count := s.count + 1 }, ?_, .countSelf (hs.1.trans hr)⟩
        rw [redirect, if_pos rfl]
        exact substituteSlot_self _
      · obtain ⟨depth, rfl⟩ : ∃ k, depth = k + 1 := ⟨depth - 1, by omega⟩
        obtain ⟨s₁, hos, hred⟩ := ih₁ hnodup₁ (show inner.length ≤ depth by omega) hs.2.1
        have hget := hs.1.trans hx
        have hlt := Arena.get?_eq_some_lt hget
        rw [← hred.exprs_size] at hlt
        refine ⟨_, ?_, hred.writeExpr hget (fun h => hmem (.inl h)) he⟩
        rw [redirect, if_neg he]
        exact substituteSlot_ne he (substituteExprStep_eq_ok hget hos hlt)
    obtain ⟨s₁, hrun, hred⟩ := hfirst
    have hdisj : (e :: inner).Disjoint rest := by
      rw [List.disjoint_cons_left]
      exact ⟨fun h => hmem (.inr h), hdisjoint⟩
    obtain ⟨s₂, hrun', hred'⟩ := ih₂ hnodup₂ (show rest.length ≤ depth by omega) fun e he => by
      rw [hred.expr, if_neg fun h => hdisj h he]
      exact hs.2.2 e he
    refine ⟨s₂, ?_, hred.trans hred' (List.disjoint_nil_left _) hdisj⟩
    rw [List.mapM_cons]
    exact Run.bind_eq_ok.2 ⟨_, hrun, Run.bind_eq_ok.2 ⟨_, hrun', rfl⟩⟩

/-- Substitution in the expressions that a statement owns itself. -/
theorem Spans.exists_substituteExprs {st : Stmt} (h : Spans p st.exprs l) (hl : l.Nodup)
    (hr : p.exprs.get? r = some (.var v)) (hlen : l.length ≤ s.program.exprs.size)
    (hs : ∀ e ∈ l, s.program.exprs.get? e = p.exprs.get? e) :
    ∃ s', (st.exprs.mapM (substituteSlot r c (substituteExpr r c))).run s =
        .ok (st.exprs.map (redirect r c), s') ∧ Redirected r c [] l s s' := by
  obtain ⟨s', hrun, hred⟩ := h.exists_substitutes hl hr (Nat.le_succ_of_le hlen) hs
  refine ⟨s', ?_, hred⟩
  rcases st.exprs_eq with hst | ⟨e, hst⟩
  · rw [hst] at hrun ⊢
    exact hrun
  · -- There is one slot only, so the depth of the recursion is that of the program at first.
    rw [hst] at hrun ⊢
    rw [List.mapM_cons] at hrun ⊢
    by_cases he : e = r
    · rw [he] at hrun ⊢
      rw [substituteSlot, if_pos rfl] at hrun ⊢
      exact hrun
    · rw [substituteSlot, if_neg he] at hrun ⊢
      exact hrun

theorem Program.substituteStmtStep_eq_ok {self : StmtId → StateT Substitution Run Unit} {t : StmtId}
    {st : Stmt} {es : List ExprId} {s₁ s₂ : Substitution} (hst : s.program.stmts.get? t = some st)
    (hes : (st.exprs.mapM (substituteSlot r c (substituteExpr r c))).run s = .ok (es, s₁))
    (ht : t.index < s₁.program.stmts.size)
    (hself : (st.children.forM self).run { s₁ with
      program.stmts := s₁.program.stmts.modify t fun _ => st.withExprs es } = .ok ((), s₂)) :
    (substituteStmtStep r c self t).run s = .ok ((), s₂) := by
  have hget : (liftM (s.program.stmts.get t) : StateT Substitution Run Stmt).run s = .ok (st, s) :=
    Run.bind_eq_ok.2 ⟨st, Arena.get_eq_ok_iff.2 hst, rfl⟩
  have hmap : (st.mapExprs (substituteSlot r c (substituteExpr r c))).run s =
      .ok (st.withExprs es, s₁) := by
    rw [Stmt.mapExprs_eq]
    exact Run.bind_eq_ok.2 ⟨(es, s₁), hes, rfl⟩
  have hset : s₁.program.stmts.set t (st.withExprs es) =
      .ok (s₁.program.stmts.modify t fun _ => st.withExprs es) := if_pos ht
  have hlift : (liftM (s₁.program.stmts.set t (st.withExprs es)) :
      StateT Substitution Run _).run s₁ =
        .ok (s₁.program.stmts.modify t fun _ => st.withExprs es, s₁) :=
    Run.bind_eq_ok.2 ⟨_, hset, rfl⟩
  rw [show st.children = (st.withExprs es).children from Stmt.children_withExprs.symm] at hself
  exact Run.bind_eq_ok.2 ⟨_, hget, Run.bind_eq_ok.2 ⟨_, hmap, Run.bind_eq_ok.2 ⟨_, hlift, hself⟩⟩⟩

/-- Redirecting the slots of a statement, once those inside its expressions are. -/
theorem Program.Substitution.Redirected.writeStmt {t : StmtId} {st : Stmt} {s₁ : Substitution}
    (h : Redirected r c [] le s s₁) (ht : s.program.stmts.get? t = some st) :
    Redirected r c [t] le s { s₁ with
      program.stmts := s₁.program.stmts.modify t fun _ => st.redirect r c } where
  count := h.count
  vars := h.vars
  methods := h.methods
  stmts_size := (Arena.size_modify _ _ _).trans h.stmts_size
  exprs_size := h.exprs_size
  stmt t' := by
    rw [Arena.get?_modify, h.stmt]
    by_cases heq : t = t'
    · subst heq
      simp [ht]
    · simp [heq, Ne.symm heq]
  expr := h.expr

/-- Substitution in statements that share nothing redirects every slot inside them. -/
theorem StmtSpans.exists_substitutes (h : StmtSpans p ss ls le) (hls : ls.Nodup) (hle : le.Nodup)
    (hr : p.exprs.get? r = some (.var v)) {depth : Nat} (hdepth : ls.length ≤ depth)
    (hlen : le.length ≤ s.program.exprs.size)
    (hst : ∀ t ∈ ls, s.program.stmts.get? t = p.stmts.get? t)
    (hs : ∀ e ∈ le, s.program.exprs.get? e = p.exprs.get? e) :
    ∃ s', (ss.forM (unroll (throw .endless) (substituteStmtStep r c) depth)).run s =
        .ok ((), s') ∧ Redirected r c ls le s s' := by
  induction h generalizing depth s with
  | nil => exact ⟨s, rfl, .refl s⟩
  | @cons t st ss inner rest own below others ht how _ _ ih₁ ih₂ =>
    simp only [List.length_cons, List.length_append] at hdepth hlen
    rw [List.forall_mem_cons, List.forall_mem_append] at hst
    rw [List.forall_mem_append, List.forall_mem_append] at hs
    rw [List.nodup_cons, List.mem_append, List.nodup_append'] at hls
    rw [List.nodup_append', List.nodup_append', List.disjoint_append_right] at hle
    obtain ⟨hmem, hinner, hrest, hdisjoint⟩ := hls
    obtain ⟨hown, ⟨hbelow, hothers, hdisjoint'⟩, hdown, hdown'⟩ := hle
    obtain ⟨depth, rfl⟩ : ∃ k, depth = k + 1 := ⟨depth - 1, by omega⟩
    -- The statement itself, then those inside it, then the others.
    obtain ⟨s₁, hes, hred₁⟩ := how.exists_substituteExprs (c := c) hown hr (s := s)
      (by omega) hs.1
    have hone : [t].Disjoint inner := List.singleton_disjoint.2 fun h => hmem (.inl h)
    have hget := hst.1.trans ht
    have hwrite := hred₁.writeStmt hget
    have hlt := Arena.get?_eq_some_lt hget
    rw [← hred₁.stmts_size] at hlt
    obtain ⟨s₂, hself, hred₂⟩ := ih₁ hinner hbelow (show inner.length ≤ depth by omega)
      (by rw [hwrite.exprs_size]; omega)
      (fun t' ht' => by
        rw [hwrite.stmt, if_neg fun h => hone h ht']
        exact hst.2.1 t' ht')
      fun e he => by
        rw [hwrite.expr, if_neg fun h => hdown h he]
        exact hs.2.1 e he
    have hrun := substituteStmtStep_eq_ok hget hes hlt hself
    have hred := hwrite.trans hred₂ hone hdown
    have hdisj : ([t] ++ inner).Disjoint rest :=
      List.disjoint_append_left.2 ⟨List.singleton_disjoint.2 fun h => hmem (.inr h), hdisjoint⟩
    have hdisj' : (own ++ below).Disjoint others :=
      List.disjoint_append_left.2 ⟨hdown', hdisjoint'⟩
    obtain ⟨s₃, hself', hred₃⟩ := ih₂ hrest hothers (show rest.length ≤ depth + 1 by omega)
      (by rw [hred.exprs_size]; omega)
      (fun t' ht' => by
        rw [hred.stmt, if_neg fun h => hdisj h ht']
        exact hst.2.2 t' ht')
      fun e he => by
        rw [hred.expr, if_neg fun h => hdisj' h he]
        exact hs.2.2 e he
    have hall := hred.trans hred₃ hdisj hdisj'
    rw [List.append_assoc, List.append_assoc] at hall
    exact ⟨s₃, Run.bind_eq_ok.2 ⟨_, hrun, hself'⟩, hall⟩

/-- Replacing a variable by another expression beneath a statement: where nothing is shared,
    every slot beneath it is redirected. -/
theorem StmtSpans.exists_replaceExpr {t : StmtId} (h : StmtSpans p [t] ls le) (hls : ls.Nodup)
    (hle : le.Nodup) (hr : p.exprs.get? r = some (.var v)) (hdepth : ls.length ≤ p.stmts.size)
    (hlen : le.length ≤ p.exprs.size) :
    ∃ q, p.replaceExpr t r c = .ok (le.count r, q) ∧
      Redirected r c ls le { program := p } ⟨q, le.count r⟩ := by
  obtain ⟨s, hrun, hred⟩ := h.exists_substitutes hls hle hr (Nat.le_succ_of_le hdepth)
    (c := c) (s := { program := p }) hlen (fun _ _ => rfl) fun _ _ => rfl
  have hcount : s.count = le.count r := by rw [hred.count, Nat.zero_add]
  refine ⟨s.program, ?_, by rwa [← hcount]⟩
  obtain ⟨⟨⟩, hfirst, hrest⟩ := Run.bind_eq_ok.1 hrun
  cases hrest
  rw [← hcount]
  exact Run.bind_eq_ok.2 ⟨_, hfirst, rfl⟩

end Tree

end Dataflow
