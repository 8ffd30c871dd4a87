import Dataflow.Proofs.Optimization

/-!
# What inlining leaves alone

Inlining replaces reads and nothing else. Variables, methods and the shape of all statements and
expressions stay as they are; only what their slots hold may change. A slot that changed held a read
of a variable of a method that is not assigned to, and it holds a copy now, all of which is new and
may be evaluated at will.

A copy may be rewritten later on, as may the slot that holds it. So what is kept along the way is said
of all new expressions: they are inert, they have new operands only and they are finite.

* `Program.SlotKept`, `Program.Framed`: what may have become of a slot, and of all slots;
* `Program.Inlines`: what holds along the way;
* `Program.Inlines.edit`: one read replaced;
* `Inlining.optimize_framed`: the whole run.
-/

namespace Dataflow

/-! ### Pieces with other slots -/

namespace Expr

variable {x : Expr} {os : List ExprId}

theorem eq_var_of_withOperands {v : VarId} (h : x.withOperands os = var v) : x = var v := by
  revert h
  fun_cases withOperands x os <;> intro h <;> first | exact h | cases h

/-- An expression assigns to the same target as long as the slot of the target is left alone. -/
theorem targets_withOperands
    (h : List.Forall₂ (fun e e' => e ∈ x.targets → e' = e) x.operands os) :
    (x.withOperands os).targets = x.targets := by
  cases x with
  | int | bool | null | var | newObject => rfl
  | field | unary | newArray =>
    obtain ⟨_, rfl⟩ := List.length_eq_one_iff.1 h.length_eq.symm
    rfl
  | binary =>
    obtain ⟨_, _, rfl⟩ := List.length_eq_two.1 h.length_eq.symm
    rfl
  | increment _ target =>
    obtain ⟨_, rfl⟩ := List.length_eq_one_iff.1 h.length_eq.symm
    obtain ⟨⟩ | ⟨htarget, _⟩ := h
    rw [htarget (List.mem_singleton_self _)]
    rfl
  | assign target | compound _ target =>
    obtain ⟨_, _, rfl⟩ := List.length_eq_two.1 h.length_eq.symm
    obtain ⟨⟩ | ⟨htarget, _⟩ := h
    rw [htarget (List.mem_singleton_self _)]
    rfl
  | call method receiver args =>
    cases receiver with
    | none => rfl
    | some receiver =>
      obtain ⟨_, _, rfl⟩ := List.exists_cons_of_length_eq_add_one h.length_eq.symm
      rfl

end Expr

theorem Stmt.withExprs_withExprs {st : Stmt} {es es' : List ExprId}
    (h : es.length = st.exprs.length) (h' : es'.length = st.exprs.length) :
    (st.withExprs es).withExprs es' = st.withExprs es' := by
  cases st with
  | block => rfl
  | expr | branch | loop =>
    obtain ⟨_, rfl⟩ := List.length_eq_one_iff.1 h
    obtain ⟨_, rfl⟩ := List.length_eq_one_iff.1 h'
    rfl
  | declare _ init =>
    cases init with
    | none => rfl
    | some =>
      obtain ⟨_, rfl⟩ := List.length_eq_one_iff.1 h
      obtain ⟨_, rfl⟩ := List.length_eq_one_iff.1 h'
      rfl
  | ret value =>
    cases value with
    | none => rfl
    | some =>
      obtain ⟨_, rfl⟩ := List.length_eq_one_iff.1 h
      obtain ⟨_, rfl⟩ := List.length_eq_one_iff.1 h'
      rfl

/-! ### Frames -/

namespace Program

/-- The expression names a variable that is declared in a method or a parameter of one. -/
def NamesLocal (p : Program) (e : ExprId) : Prop :=
  ∃ v decl, p.exprs.get? e = some (.var v) ∧ p.vars.get? v = some decl ∧ decl.kind ≠ .field

/-- A slot that held `e` holds `e'`: the same, or something new where a variable was read. Here
    `targets` is what is assigned to where the slot is. -/
def SlotKept (p : Program) (new : ExprId → Prop) (targets : List ExprId) (e e' : ExprId) : Prop :=
  e' = e ∨ (p.NamesLocal e ∧ e ∉ targets ∧ new e')

/-- The program `q` is `p` but for what some slots hold, and for new expressions. -/
structure Framed (p q : Program) (new : ExprId → Prop) : Prop where
  vars : q.vars = p.vars
  methods : q.methods = p.methods
  stmts_size : q.stmts.size = p.stmts.size
  exprs_size : p.exprs.size ≤ q.exprs.size
  stmt : ∀ t st, p.stmts.get? t = some st → ∃ es, q.stmts.get? t = some (st.withExprs es) ∧
    List.Forall₂ (p.SlotKept new []) st.exprs es
  expr : ∀ e x, p.exprs.get? e = some x → ∃ os, q.exprs.get? e = some (x.withOperands os) ∧
    List.Forall₂ (p.SlotKept new x.targets) x.operands os

/-- The expression is there in `q` and not in `p`. -/
def Adds (p q : Program) (e : ExprId) : Prop := p.exprs.size ≤ e.index ∧ e.index < q.exprs.size

/-- All of an expression was added, and it has no side effects and allocates nothing. -/
def AddsInert (p q : Program) (e : ExprId) : Prop :=
  ∃ l, Spans q [e] l ∧ q.Inert l ∧ ∀ o ∈ l, p.Adds q o

/-- What inlining made of the program `p` on its way. -/
structure Inlines (p q : Program) : Prop extends p.Framed q (p.Adds q) where
  inert : ∀ e x, p.exprs.size ≤ e.index → q.exprs.get? e = some x →
    q.impureHead x = false ∧ x.isAllocation = false
  operands : ∀ e x, p.exprs.size ≤ e.index → q.exprs.get? e = some x →
    ∀ o ∈ x.operands, p.exprs.size ≤ o.index
  spans : ∀ e, p.Adds q e → ∃ l, Spans q [e] l

section Frames

variable {p q : Program} {new new' : ExprId → Prop} {targets : List ExprId} {e e' r c : ExprId}

theorem SlotKept.mono (h : p.SlotKept new targets e e') (hnew : ∀ o, new o → new' o) :
    p.SlotKept new' targets e e' :=
  h.imp_right fun ⟨hread, htarget, hn⟩ => ⟨hread, htarget, hnew _ hn⟩

theorem Framed.mono (h : p.Framed q new) (hnew : ∀ o, new o → new' o) : p.Framed q new' where
  __ := h
  stmt t st hst := by
    obtain ⟨es, hes, hslots⟩ := h.stmt t st hst
    exact ⟨es, hes, hslots.imp fun _ _ hs => hs.mono hnew⟩
  expr e x hx := by
    obtain ⟨os, hos, hslots⟩ := h.expr e x hx
    exact ⟨os, hos, hslots.imp fun _ _ hs => hs.mono hnew⟩

/-- A slot is redirected from a read to something new. -/
theorem SlotKept.redirect (h : p.SlotKept new targets e e') (hnew : ∀ o, new o → new' o)
    (hr : e = r → p.NamesLocal r) (htarget : r ∉ targets) (hc : new' c) :
    p.SlotKept new' targets e (Dataflow.redirect r c e') := by
  by_cases he : e' = r
  · rw [Dataflow.redirect, if_pos he]
    rcases h with rfl | ⟨hread, htarget', _⟩
    · exact .inr ⟨he ▸ hr he, he ▸ htarget, hc⟩
    · exact .inr ⟨hread, htarget', hc⟩
  · rw [Dataflow.redirect, if_neg he]
    exact h.mono hnew

theorem Inlines.refl (p : Program) : p.Inlines p where
  vars := rfl
  methods := rfl
  stmts_size := rfl
  exprs_size := Nat.le_refl _
  stmt t st hst := ⟨st.exprs, by rw [st.withExprs_exprs, hst], List.forall₂_same.2 fun _ _ => .inl rfl⟩
  expr e x hx := ⟨x.operands, by rw [x.withOperands_operands, hx],
    List.forall₂_same.2 fun _ _ => .inl rfl⟩
  inert _ _ he hx := absurd (Arena.get?_eq_some_lt hx) (Nat.not_lt.2 he)
  operands _ _ he hx := absurd (Arena.get?_eq_some_lt hx) (Nat.not_lt.2 he)
  spans _ he := absurd he.2 (Nat.not_lt.2 he.1)

/-- New expressions are all new and inert. -/
theorem Inlines.addsInert (h : p.Inlines q) (hc : p.Adds q c) : p.AddsInert q c := by
  obtain ⟨l, hl⟩ := h.spans c hc
  have hnew : ∀ {es l : List ExprId}, Spans q es l → (∀ e ∈ es, p.exprs.size ≤ e.index) →
      ∀ e ∈ l, p.exprs.size ≤ e.index := by
    intro es l hl
    induction hl with
    | nil => exact fun hes => hes
    | cons hx _ _ ih₁ ih₂ =>
      intro hes
      rw [List.forall_mem_cons] at hes
      rw [List.forall_mem_cons, List.forall_mem_append]
      exact ⟨hes.1, ih₁ (h.operands _ _ hes.1 hx), ih₂ hes.2⟩
  have hall := hnew hl (List.forall_mem_singleton.2 hc.1)
  exact ⟨l, hl, fun e he x hx => h.inert e x (hall e he) hx, fun e he => ⟨hall e he, hl.index_lt he⟩⟩

end Frames

/-! ### One read replaced -/

section Edits

variable {p q q' : Program} {r c a : ExprId} {ls : List StmtId} {le la lc : List ExprId}
  (hedit : q.Edited q' r c a ls le la lc)
include hedit

/-- Expressions stay finite if slots in them, some or all, are redirected to the copy. -/
theorem Edited.exists_spans {es l : List ExprId} (hl : Spans q es l) :
    (∃ l', Spans q' es l') ∧ ∃ l', Spans q' (es.map (redirect r c)) l' := by
  induction hl with
  | nil => exact ⟨⟨[], .nil⟩, [], .nil⟩
  | @cons e x es inner rest hx _ _ ih₁ ih₂ =>
    obtain ⟨⟨inner₁, hinner₁⟩, inner₂, hinner₂⟩ := ih₁
    obtain ⟨⟨rest₁, hrest₁⟩, rest₂, hrest₂⟩ := ih₂
    obtain ⟨l, hself⟩ : ∃ l, Spans q' [e] l := by
      rcases hedit.expr_or e (Arena.get?_eq_some_lt hx) with heq | heq
      · exact ⟨_, .cons (heq.trans hx) hinner₁ .nil⟩
      · rw [hx] at heq
        exact ⟨_, .cons heq (by rwa [Expr.operands_redirect]) .nil⟩
    refine ⟨⟨_, hself.append hrest₁⟩, ?_⟩
    rw [List.map_cons, redirect]
    split
    · exact ⟨_, hedit.copies.spans.append hrest₂⟩
    · exact ⟨_, hself.append hrest₂⟩

theorem Edited.adds (hle : p.exprs.size ≤ q.exprs.size) {e : ExprId} (he : e ∈ lc) : p.Adds q' e :=
  ⟨Nat.le_trans hle ((hedit.fresh e).1 he).1, ((hedit.fresh e).1 he).2⟩

theorem Edited.adds_copy (hle : p.exprs.size ≤ q.exprs.size) : p.Adds q' c :=
  hedit.adds hle (hedit.copies.spans.mem_of_mem_roots (List.mem_singleton_self c))

/-- What is known of all slots, once another read is replaced. -/
theorem Framed.edit (h : p.Framed q (p.Adds q)) (hp : p.InRange)
    (htarget : ∀ e ∈ le, ∀ x, q.exprs.get? e = some x → r ∉ x.targets) {v : VarId}
    (hr : q.exprs.get? r = some (.var v)) (hv : q.isOfMethod v = .ok true) :
    p.Framed q' (p.Adds q') := by
  have hmono : ∀ o, p.Adds q o → p.Adds q' o := fun o ho =>
    ⟨ho.1, Nat.lt_of_lt_of_le ho.2 hedit.exprs_size⟩
  -- A slot that was left alone so far names the same variable at the start.
  have hread : r.index < p.exprs.size → p.NamesLocal r := by
    intro hlt
    obtain ⟨x, hx⟩ := Arena.exists_get?_of_lt hlt
    obtain ⟨os, hos, _⟩ := h.expr r x hx
    obtain rfl := Expr.eq_var_of_withOperands (Option.some.inj (hos.symm.trans hr))
    obtain ⟨decl, hdecl, hkind⟩ := isOfMethod_eq_ok.1 hv
    exact ⟨v, decl, hx, h.vars ▸ hdecl, hkind.1 rfl⟩
  have hslots : ∀ {targets es os : List ExprId}, (∀ e ∈ es, e.index < p.exprs.size) →
      r ∉ targets → List.Forall₂ (p.SlotKept (p.Adds q) targets) es os →
      List.Forall₂ (p.SlotKept (p.Adds q') targets) es (os.map (redirect r c)) := by
    intro targets es os hes ht hkept
    refine List.forall₂_map_right_iff.2 (((List.forall₂_and_left _ _).2 ⟨hes, hkept⟩).imp ?_)
    rintro e e' ⟨he, hslot⟩
    exact hslot.redirect hmono (fun heq => hread (heq ▸ he)) ht (hedit.adds_copy h.exprs_size)
  refine ⟨hedit.vars.trans h.vars, hedit.methods.trans h.methods,
    hedit.stmts_size.trans h.stmts_size, Nat.le_trans h.exprs_size hedit.exprs_size,
    fun t st hst => ?_, fun e x hx => ?_⟩
  · obtain ⟨es, hes, hkept⟩ := h.stmt t st hst
    have hlen := hkept.length_eq.symm
    by_cases ht : t ∈ ls
    · refine ⟨es.map (redirect r c), ?_, hslots (hp.exprs t st hst) List.not_mem_nil hkept⟩
      rw [hedit.stmt t ht, hes, Option.map_some, Stmt.redirect, Stmt.exprs_withExprs hlen,
        Stmt.withExprs_withExprs hlen (by rw [List.length_map, hlen])]
    · exact ⟨es, (hedit.stmt_else t ht).trans hes, hkept.imp fun _ _ hs => hs.mono hmono⟩
  · obtain ⟨os, hos, hkept⟩ := h.expr e x hx
    have hlen := hkept.length_eq.symm
    by_cases he : e ∈ le
    · have htargets : (x.withOperands os).targets = x.targets := Expr.targets_withOperands
        (hkept.imp fun _ _ hs ht => hs.resolve_right fun hs => hs.2.1 ht)
      have hnot := htargets ▸ htarget e he _ hos
      refine ⟨os.map (redirect r c), ?_, hslots (hp.operands e x hx) hnot hkept⟩
      rw [hedit.expr e he, hos, Option.map_some, Expr.redirect, Expr.operands_withOperands hlen,
        Expr.withOperands_withOperands hlen (by rw [List.length_map, hlen])]
    · exact ⟨os, (hedit.expr_else e (Arena.get?_eq_some_lt hos) he).trans hos,
        hkept.imp fun _ _ hs => hs.mono hmono⟩

/-- What holds along the way, once another read is replaced. -/
theorem Inlines.edit (h : p.Inlines q) (hp : p.InRange)
    (htarget : ∀ e ∈ le, ∀ x, q.exprs.get? e = some x → r ∉ x.targets) {v : VarId}
    (hr : q.exprs.get? r = some (.var v)) (hv : q.isOfMethod v = .ok true) (ha : q.Inert la) :
    p.Inlines q' where
  toFramed := h.toFramed.edit hedit hp htarget hr hv
  inert e y he hy := by
    rcases hedit.expr_cases hy with ⟨x, hx, rfl | rfl⟩ | hmem
    · rw [impureHead_congr hedit.methods]
      exact h.inert e y he hx
    · rw [impureHead_congr hedit.methods, Expr.redirect, Expr.impureHead_withOperands,
        Expr.isAllocation_withOperands]
      exact h.inert e x he hx
    · exact hedit.inert ha e hmem y hy
  operands e y he hy := by
    rcases hedit.expr_cases hy with ⟨x, hx, rfl | rfl⟩ | hmem
    · exact h.operands e y he hx
    · rw [Expr.operands_redirect, List.forall_mem_map]
      intro o ho
      rw [redirect]
      split
      · exact (hedit.adds_copy h.exprs_size).1
      · exact h.operands e x he hx o ho
    · obtain ⟨_, _, x, os, _, hx, hlen, hos⟩ := hedit.copies.exists_of_mem hmem
      cases hx.symm.trans hy
      rw [Expr.operands_withOperands hlen]
      exact fun o ho => (hedit.adds h.exprs_size (hos o ho)).1
  spans e he := by
    by_cases hlt : e.index < q.exprs.size
    · obtain ⟨l, hl⟩ := h.spans e ⟨he.1, hlt⟩
      exact (hedit.exists_spans hl).1
    · obtain ⟨x, inner, hx, hinner, _⟩ := hedit.copies.spans.exists_sublist
        ((hedit.fresh e).2 ⟨Nat.not_lt.1 hlt, he.2⟩)
      exact ⟨_, .cons hx hinner .nil⟩

end Edits

end Program

/-! ### The whole run -/

namespace Inlining

variable {p : Program} {g₀ : Graph} {body : StmtId} {s s' : Sweep Known}

theorem Progresses.inlines (h : Progresses g₀ body s s') (hp : p.InRange)
    (hs : p.Inlines s.program) : p.Inlines s'.program := by
  cases h.moves with
  | pass => exact hs
  | replace _ hprop hin => exact hs.edit hin.edited hp hin.not_target hin.var hprop.tracked hin.inert

/-- A sweep that replaced no read left the program alone. -/
theorem program_eq_of_reaches (h : Relation.ReflTransGen (Progresses g₀ body) s s') :
    s.rewrites ≤ s'.rewrites ∧ (s'.rewrites = s.rewrites → s'.program = s.program) := by
  induction h with
  | refl => exact ⟨Nat.le_refl _, fun _ => rfl⟩
  | tail _ hlast ih =>
    cases hlast.moves with
    | pass => exact ih
    | replace =>
      refine ⟨Nat.le_succ_of_le ih.1, fun heq => ?_⟩
      exact absurd heq (Nat.ne_of_gt (Nat.lt_succ_of_le ih.1))

theorem program_eq_of_optimizeMethods {ms : List MethodId} {options : Options} {fuel : Fuel}
    {changed : Bool} {o : Optimization} (hp : p.IsTree)
    (h : optimizeMethods .declared options ms p fuel changed = .ok o) (ho : o.outcome = .ok false) :
    changed = false ∧ o.program = p := by
  induction ms generalizing p fuel changed with
  | nil =>
    cases h
    exact ⟨Except.ok.inj ho, rfl⟩
  | cons m ms ih =>
    rcases optimizeMethods_cons_cases hp h with
      ⟨_, _, failure, hfailure⟩ | ⟨g, body, F, s, _, hstart, hs, h⟩
    · cases hfailure.symm.trans ho
    · obtain ⟨hchanged, hprogram⟩ := ih (hstart.of_reaches hs).tree h
      simp only [Bool.or_eq_false_iff, decide_eq_false_iff_not, Nat.not_lt, Nat.le_zero] at hchanged
      exact ⟨hchanged.1, hprogram.trans ((program_eq_of_reaches hs).2 hchanged.2)⟩

/-- Inlining in a tree program replaces reads and nothing else, however it ends. It leaves a tree
    program, and the same one where it says that it changed nothing. -/
theorem optimize_framed {p : Program} (hp : p.IsTree) {options : Options} {fuel : Fuel}
    {o : Optimization} (ho : optimize .declared options fuel p = .ok o) :
    p.Framed o.program (p.AddsInert o.program) ∧ o.program.IsTree ∧
      (o.outcome = .ok false → o.program = p) := by
  have hinlines : p.Inlines o.program := keeps_of_optimizeMethods
    (fun hstep _ _ hkept => hstep.inlines hp.inRange hkept) hp (.refl p) ho
  refine ⟨hinlines.toFramed.mono fun _ hc => hinlines.addsInert hc, ?_,
    fun hfalse => (program_eq_of_optimizeMethods hp ho hfalse).2⟩
  exact keeps_of_optimizeMethods (fun hstep _ _ _ => hstep.sound.tree) hp hp ho

/-- What was inlined before a failure stays, and it is framed. -/
theorem optimize_framed_misassigned : sampleMisassigned.IsTree ∧ ∃ o : Optimization,
    optimize .declared { bound := 50 } Fuel.infinite sampleMisassigned = .ok o ∧
    o.outcome = .error (.lowering "assign" (.badTarget (.int 2))) ∧
    sampleMisassigned.stmts.get? ⟨1⟩ = some (.ret (some ⟨1⟩)) ∧
    o.program.stmts.get? ⟨1⟩ = some (.ret (some ⟨5⟩)) ∧
    sampleMisassigned.Framed o.program (sampleMisassigned.AddsInert o.program) := by
  have htree : sampleMisassigned.IsTree :=
    Program.isTree_of_check (show sampleMisassigned.checksAsTree 8 = true by decide)
  have hrun : (optimize .declared { bound := 50 } Fuel.infinite sampleMisassigned).map
      (fun o => (o.outcome, o.program.stmts.get? ⟨1⟩)) =
      .ok (.error (.lowering "assign" (.badTarget (.int 2))), some (.ret (some ⟨5⟩))) := by
    decide +kernel
  cases h : optimize .declared { bound := 50 } Fuel.infinite sampleMisassigned with
  | error fault =>
    rw [h] at hrun
    cases hrun
  | ok o =>
    rw [h] at hrun
    obtain ⟨houtcome, hslot⟩ := Prod.mk.inj (Except.ok.inj hrun)
    exact ⟨htree, o, rfl, houtcome, rfl, hslot, (optimize_framed htree h).1⟩

end Inlining

end Dataflow
