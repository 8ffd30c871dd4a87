import Dataflow.Eval
import Dataflow.Program.Source
import Dataflow.Proofs.Acyclic

/-!
# Clones

What is shared inside an expression is cloned once for each way to it, so the clone of an expression
without cycles is a tree in slots of its own: it has a slot for each visit of a walk over the
expression, and looks the same on every visit. Text and value of an expression only depend on what
such a walk finds, so they are those of the clone.

* `Expr.bare`: what an expression is apart from its operands;
* `Program.StepsAlike`: one level of a recursion makes the same of copies, given the same for their
  operands;
* `Copies.unroll_eq`: then the recursion makes the same of copies, however deep it goes;
* `Copies.showExpr_eq`, `Copies.evalExpr_eq`: copies have the same text and the same value;
* `Program.Acyclic.exists_showExpr`: an expression without cycles has a text;
* `Program.cloneExpr_fresh`: what cloning does.
-/

namespace Dataflow

/-! ### Expressions without their operands -/

namespace Expr

variable {x : Expr} {os : List ExprId}

/-- What an expression is apart from its operands, of which only the number is left. -/
def bare (x : Expr) : Expr := x.withOperands (x.operands.map fun _ => .invalid)

theorem bare_withOperands (h : os.length = x.operands.length) :
    (x.withOperands os).bare = x.bare := by
  have hlen : (os.map fun _ => (.invalid : ExprId)).length = x.operands.length := by
    rw [List.length_map, h]
  rw [bare, operands_withOperands h, withOperands_withOperands h hlen, bare, List.map_const',
    List.map_const', h]

example : (call ⟨0⟩ (some ⟨4⟩) [⟨2⟩]).bare = call ⟨0⟩ (some .invalid) [.invalid] := rfl

@[simp] theorem precedence_withOperands : (x.withOperands os).precedence = x.precedence := by
  fun_cases withOperands x os with
  | case6 op => cases op <;> rfl
  | _ => rfl

end Expr

/-! ### Look-ups -/

section Lookup

variable {name : String} {α β : Type} {a : Arena name α} {h : Handle name} {x : α}

theorem Run.exists_bind {r : Run α} {f : α → Run β} (hr : ∃ a, r = .ok a)
    (hf : ∀ a, ∃ b, f a = .ok b) : ∃ b, (r >>= f) = .ok b := by
  obtain ⟨a, ha⟩ := hr
  obtain ⟨b, hb⟩ := hf a
  exact ⟨b, Run.bind_eq_ok.2 ⟨a, ha, hb⟩⟩

theorem Arena.exists_get (hx : a.get? h = some x) : ∃ y, a.get h = .ok y :=
  ⟨x, get_eq_ok_iff.2 hx⟩

theorem Arena.get_bind (hx : a.get? h = some x) (f : α → Run β) : a.get h >>= f = f x := by
  rw [get_eq_ok_iff.2 hx]
  rfl

theorem Eval.lookup_bind (hx : a.get? h = some x) (f : α → Eval β) :
    (liftM (a.get h) : Eval α) >>= f = f x := by
  rw [Arena.get_eq_ok_iff.2 hx]
  rfl

end Lookup

/-! ### Recursion into copies -/

theorem mapM_eq_of_forall₂ {α β γ : Type} {m : Type → Type} [Monad m] [LawfulMonad m] {f : α → m γ}
    {g : β → m γ} {as : List α} {bs : List β} (h : List.Forall₂ (fun a b => g b = f a) as bs) :
    bs.mapM g = as.mapM f := by
  induction h with
  | nil => rfl
  | cons hab _ ih => rw [List.mapM_cons, List.mapM_cons, hab, ih]

namespace Program

/-- Two expressions that differ in their operands only. -/
def Alike (p q : Program) (e c : ExprId) : Prop :=
  ∃ x os, p.exprs.get? e = some x ∧ q.exprs.get? c = some (x.withOperands os)

/-- Two expressions that differ in their operands only, and of which `f` and `g` make the same. -/
def Agrees {β : Type} (p q : Program) (f g : ExprId → β) (e c : ExprId) : Prop :=
  p.Alike q e c ∧ g c = f e

/-- One level of a recursion makes the same of two expressions that differ in their operands only,
    if it is given the same for the operands. -/
def StepsAlike {β : Type} (p q : Program) (step step' : (ExprId → β) → ExprId → β) : Prop :=
  ∀ f g e c x os, p.exprs.get? e = some x → q.exprs.get? c = some (x.withOperands os) →
    List.Forall₂ (p.Agrees q f g) x.operands os → step' g c = step f e

theorem alike_self {p : Program} {e : ExprId} {x : Expr} (h : p.exprs.get? e = some x) :
    p.Alike p e e :=
  ⟨x, x.operands, h, by rw [x.withOperands_operands, h]⟩

end Program

variable {p q : Program} {es l cs l' : List ExprId} {e c : ExprId}

/-- Expressions are copies of themselves where they are left alone. -/
theorem Spans.copies (h : Spans p es l) (hl : ∀ e ∈ l, q.exprs.get? e = p.exprs.get? e) :
    Copies p q es l es l := by
  induction h with
  | nil => exact .nil
  | @cons e x es inner rest hx _ _ ih₁ ih₂ =>
    rw [List.forall_mem_cons, List.forall_mem_append] at hl
    refine .cons hx ?_ rfl (ih₁ hl.2.1) (ih₂ hl.2.2)
    rw [x.withOperands_operands, hl.1, hx]

section Recursion

variable {β : Type} {step step' : (ExprId → β) → ExprId → β}

/-- Recursion makes the same of expressions and of copies of them, however deep it goes. -/
theorem Copies.agrees (hstep : p.StepsAlike q step step') (h : Copies p q es l cs l') (stop : β)
    (depth : Nat) :
    List.Forall₂ (p.Agrees q (unroll stop step depth) (unroll stop step' depth)) es cs := by
  induction h generalizing depth with
  | nil => exact .nil
  | cons he hc _ _ _ ih₁ ih₂ =>
    refine .cons ⟨⟨_, _, he, hc⟩, ?_⟩ (ih₂ depth)
    cases depth with
    | zero => rfl
    | succ depth =>
      -- The operands are one level further down, the other expressions are on the same level.
      rw [unroll_succ, unroll_succ]
      exact hstep _ _ _ _ _ _ he hc (ih₁ depth)

theorem Copies.unroll_eq (hstep : p.StepsAlike q step step') (h : Copies p q [e] l [c] l')
    (stop : β) (depth : Nat) : unroll stop step' depth c = unroll stop step depth e :=
  (List.forall₂_cons.1 (h.agrees hstep stop depth)).1.2

/-- Recursion makes the same of an expression at all depths that are no less than the number of
    expressions. -/
theorem Spans.unroll_eq_of_stepsAlike (hstep : p.StepsAlike p step step) (h : Spans p [e] l)
    (stop : β) {m n : Nat} (hm : p.exprs.size ≤ m) (hn : p.exprs.size ≤ n) :
    unroll stop step m e = unroll stop step n e := by
  refine h.unroll_eq (fun f g o x inner hx hinner hfg => ?_) (h.length_dedup_le.trans hm)
    (h.length_dedup_le.trans hn) e (h.mem_of_mem_roots (List.mem_singleton_self e))
  -- The two depths are compared as if the expression were a copy of itself.
  refine hstep g f o o x x.operands hx (by rw [x.withOperands_operands, hx]) ?_
  refine List.forall₂_same.2 fun o' ho' => ?_
  have hmem := hinner.mem_of_mem_roots ho'
  obtain ⟨y, hy⟩ := hinner.exists_get hmem
  exact ⟨Program.alike_self hy, hfg o' hmem⟩

end Recursion

/-! ### Texts -/

namespace Program

theorem Agrees.showOperand_eq {f g : ExprId → Run String} (h : p.Agrees q f g e c) (least : Nat) :
    q.showOperand g least c = p.showOperand f least e := by
  obtain ⟨⟨x, os, hx, hc⟩, hfg⟩ := h
  simp only [showOperand, Arena.get_bind hx, Arena.get_bind hc, hfg, Expr.precedence_withOperands]

theorem showExprStep_alike (hvars : q.vars = p.vars) (hmethods : q.methods = p.methods) :
    p.StepsAlike q p.showExprStep q.showExprStep := by
  intro f g e c x os hx hc h
  have hname : ∀ v, q.varName v = p.varName v := fun v => by rw [varName, varName, hvars]
  have hargs : ∀ {args args' : List ExprId}, List.Forall₂ (p.Agrees q f g) args args' →
      args'.mapM (q.showOperand g Precedence.assignment) =
        args.mapM (p.showOperand f Precedence.assignment) := fun h =>
    mapM_eq_of_forall₂ (h.imp fun _ _ ho => ho.showOperand_eq _)
  simp only [showExprStep, Arena.get_bind hx, Arena.get_bind hc]
  cases x with
  | int | bool | null | newObject => rfl
  | var v => exact hname v
  | field object v =>
    obtain _ | ⟨ho, _ | _⟩ := h
    simp only [Expr.withOperands, ho.showOperand_eq, hname]
  | unary op operand =>
    obtain _ | ⟨ho, _ | _⟩ := h
    simp only [Expr.withOperands, ho.showOperand_eq]
  | binary op lhs rhs | assign lhs rhs | compound op lhs rhs =>
    obtain _ | ⟨hl, _ | ⟨hr, _ | _⟩⟩ := h
    simp only [Expr.withOperands, hl.showOperand_eq, hr.showOperand_eq]
  | increment op target =>
    obtain _ | ⟨ho, _ | _⟩ := h
    cases op <;> simp only [Expr.withOperands, ho.showOperand_eq]
  | call method receiver args =>
    cases receiver with
    | none =>
      have htexts := hargs (show List.Forall₂ _ args os from h)
      simp only [Expr.withOperands, htexts, hmethods]
    | some receiver =>
      obtain _ | ⟨ho, h⟩ := h
      have htexts := hargs (show List.Forall₂ _ args _ from h)
      simp only [Expr.withOperands, ho.showOperand_eq, htexts, hmethods]
  | newArray element length =>
    obtain _ | ⟨ho, _ | _⟩ := h
    simp only [Expr.withOperands, ho.2]

end Program

/-- Copies of expressions have the same text. -/
theorem Copies.showExpr_eq (h : Copies p q [e] l [c] l') (hvars : q.vars = p.vars)
    (hmethods : q.methods = p.methods) : q.showExpr c = p.showExpr e := by
  -- Both programs are compared at a depth that is enough for either.
  have hp := h.spans_original.unroll_eq_of_stepsAlike (Program.showExprStep_alike rfl rfl)
    (throw .endless) (Nat.le_succ _) (Nat.le_add_right p.exprs.size q.exprs.size)
  have hq := h.spans.unroll_eq_of_stepsAlike (Program.showExprStep_alike rfl rfl)
    (throw .endless) (Nat.le_succ _) (Nat.le_add_left q.exprs.size p.exprs.size)
  have hcopy := h.unroll_eq (Program.showExprStep_alike hvars hmethods) (throw .endless)
    (p.exprs.size + q.exprs.size)
  exact hq.trans (hcopy.trans hp.symm)

namespace Program

/-- One level of the text of an expression is there, if that of the operands and all names are. -/
theorem exists_showExprStep (hp : p.InRange) {self : ExprId → Run String} {x : Expr}
    (hx : p.exprs.get? e = some x) (hspans : Spans p x.operands l)
    (hself : ∀ o ∈ l, ∃ s, self o = .ok s) : ∃ s, p.showExprStep self e = .ok s := by
  have hoperand : ∀ o ∈ x.operands, ∀ least, ∃ s, p.showOperand self least o = .ok s := by
    intro o ho least
    have hmem := hspans.mem_of_mem_roots ho
    obtain ⟨y, hy⟩ := hspans.exists_get hmem
    exact Run.exists_bind (Arena.exists_get hy) fun _ =>
      Run.exists_bind (hself o hmem) fun _ => ⟨_, rfl⟩
  have hname : ∀ v, x.namedVar = some v → ∃ s, p.varName v = .ok s := by
    intro v hv
    obtain ⟨decl, hdecl⟩ := Arena.exists_get?_of_lt (hp.named e x v hx hv)
    exact Run.exists_bind (Arena.exists_get hdecl) fun _ => ⟨_, rfl⟩
  rw [showExprStep, Arena.get_bind hx]
  cases x with
  | int | bool | null | newObject => exact ⟨_, rfl⟩
  | var v => exact hname v rfl
  | field object v =>
    exact Run.exists_bind (hoperand object (by simp [Expr.operands]) _) fun _ =>
      Run.exists_bind (hname v rfl) fun _ => ⟨_, rfl⟩
  | unary op operand =>
    exact Run.exists_bind (hoperand operand (by simp [Expr.operands]) _) fun _ => ⟨_, rfl⟩
  | binary op lhs rhs | assign lhs rhs | compound op lhs rhs =>
    exact Run.exists_bind (hoperand lhs (by simp [Expr.operands]) _) fun _ =>
      Run.exists_bind (hoperand rhs (by simp [Expr.operands]) _) fun _ => ⟨_, rfl⟩
  | increment op target =>
    have htarget := hoperand target (by simp [Expr.operands])
    cases op <;> exact Run.exists_bind (htarget _) fun _ => ⟨_, rfl⟩
  | call method receiver args =>
    have hrest : ∀ before : String, ∃ s, (do
        let decl ← p.methods.get method
        let texts ← args.mapM (p.showOperand self Precedence.assignment)
        return before ++ decl.name ++ "(" ++ ", ".intercalate texts ++ ")") = (.ok s : Run String) := by
      intro before
      obtain ⟨decl, hdecl⟩ := Arena.exists_get?_of_lt (hp.callee e method receiver args hx)
      have hargs := Run.exists_mapM_eq_ok.2 fun o ho =>
        hoperand o (List.mem_append_right receiver.toList ho) Precedence.assignment
      exact Run.exists_bind (Arena.exists_get hdecl) fun _ => Run.exists_bind hargs fun _ => ⟨_, rfl⟩
    cases receiver with
    | none => exact hrest ""
    | some receiver =>
      exact Run.exists_bind (hoperand receiver (by simp [Expr.operands]) _) fun _ => hrest _
  | newArray element length =>
    have hmem := hspans.mem_of_mem_roots (show length ∈ [length] from List.mem_singleton_self _)
    exact Run.exists_bind (hself length hmem) fun _ => ⟨_, rfl⟩

/-- An expression without cycles has a text, if all names are there. -/
theorem Acyclic.exists_showExpr (h : p.Acyclic (.expr e)) (hp : p.InRange) :
    ∃ s, p.showExpr e = .ok s := by
  obtain ⟨l, hl⟩ := h.exists_spans
  exact hl.forall_unroll (P := fun _ (text : Run String) => ∃ s, text = .ok s)
    (fun _ _ _ _ _ hx hinner => exists_showExprStep hp hx hinner)
    (Nat.le_succ_of_le hl.length_dedup_le) e (hl.mem_of_mem_roots (List.mem_singleton_self e))

end Program

/-! ### Values -/

namespace Program

theorem Alike.evalTarget_eq (h : p.Alike q e c) : q.evalTarget c = p.evalTarget e := by
  obtain ⟨x, os, hx, hc⟩ := h
  simp only [evalTarget, Eval.lookup_bind hx, Eval.lookup_bind hc, Expr.namedVar_withOperands]

theorem evalExprStep_alike (hmethods : q.methods = p.methods) :
    p.StepsAlike q p.evalExprStep q.evalExprStep := by
  intro f g e c x os hx hc h
  simp only [evalExprStep, Eval.lookup_bind hx, Eval.lookup_bind hc]
  cases x with
  | int | bool | null | newObject | var => rfl
  | field | newArray =>
    obtain _ | ⟨_, _ | _⟩ := h
    rfl
  | unary op operand =>
    obtain _ | ⟨ho, _ | _⟩ := h
    simp only [Expr.withOperands, ho.2]
  | binary op lhs rhs =>
    obtain _ | ⟨hl, _ | ⟨hr, _ | _⟩⟩ := h
    simp only [Expr.withOperands, hl.2, hr.2]
  | assign target value | compound op target value =>
    obtain _ | ⟨ht, _ | ⟨hv, _ | _⟩⟩ := h
    simp only [Expr.withOperands, ht.1.evalTarget_eq, hv.2]
  | increment op target =>
    obtain _ | ⟨ht, _ | _⟩ := h
    simp only [Expr.withOperands, ht.1.evalTarget_eq]
  | call method receiver args =>
    cases receiver with
    | none =>
      have hargs : os.mapM g = args.mapM f := mapM_eq_of_forall₂ (h.imp fun _ _ ho => ho.2)
      simp only [Expr.withOperands, hargs, hmethods]
    | some receiver =>
      obtain _ | ⟨_, _⟩ := h
      rfl

end Program

/-- Evaluating a copy of an expression is evaluating the expression. -/
theorem Copies.evalExpr_eq (h : Copies p q [e] l [c] l') (hmethods : q.methods = p.methods) :
    q.evalExpr c = p.evalExpr e := by
  refine congrArg (get >>= ·) (funext fun s => ?_)
  exact h.unroll_eq (Program.evalExprStep_alike hmethods) (throw .outOfFuel) (s.fuel + 1)

/-! ### Walks -/

/-- A walk visits copies where it visits the expressions, and finds the same there apart from
    operands. -/
theorem Copies.map_bare_entriesOf (h : Copies p q es l cs l') :
    (q.entriesOf l').map (fun visit => visit.2.bare) =
      (p.entriesOf l).map fun visit => visit.2.bare := by
  induction h with
  | nil => rfl
  | cons he hc hlen _ _ ih₁ ih₂ =>
    simp only [Program.entriesOf, List.filterMap_cons, List.filterMap_append, he, hc,
      Option.map_some, List.map_cons, List.map_append, Expr.bare_withOperands hlen] at ih₁ ih₂ ⊢
    rw [ih₁, ih₂]

theorem Spans.map_fst_entriesOf (h : Spans p es l) : (p.entriesOf l).map Prod.fst = l := by
  induction h with
  | nil => rfl
  | cons hx _ _ ih₁ ih₂ =>
    simp only [Program.entriesOf, List.filterMap_cons, List.filterMap_append, hx,
      Option.map_some, List.map_cons, List.map_append] at ih₁ ih₂ ⊢
    rw [ih₁, ih₂]

namespace Program

/-- All new slots are listed. -/
theorem Grown.size_eq {fresh : List ExprId} (h : p.Grown q fresh) :
    q.exprs.size = p.exprs.size + fresh.length := by
  have hnodup : ((List.range' p.exprs.size (q.exprs.size - p.exprs.size)).map
      fun i => (⟨i⟩ : ExprId)).Nodup :=
    List.Nodup.map (fun _ _ h => Handle.mk.inj h) (List.nodup_range' ..)
  have hle := h.le
  have hperm := (List.perm_ext_iff_of_nodup h.nodup hnodup).2 fun e => by
    rw [h.mem_iff, List.mem_map]
    constructor
    · intro he
      exact ⟨e.index, List.mem_range'_1.2 (by omega), rfl⟩
    · rintro ⟨i, hi, rfl⟩
      have hi := List.mem_range'_1.1 hi
      exact ⟨hi.1, show i < q.exprs.size by omega⟩
  have hlen := hperm.length_eq
  rw [List.length_map, List.length_range'] at hlen
  omega

/-- A clone is in the last slot. -/
theorem index_of_cloneExpr (h : p.cloneExpr e = .ok (c, q)) : c.index + 1 = q.exprs.size := by
  obtain ⟨⟨x, p₁⟩, _, h⟩ := Run.bind_eq_ok.1 h
  obtain ⟨⟨copy, p₂⟩, _, h⟩ := Run.bind_eq_ok.1 h
  -- By now the operands are cloned, and one more slot is filled.
  cases h
  rw [addExpr, Arena.size_push]
  rfl

/-- Cloning an expression without cycles makes a tree of its own, whatever is shared inside the
    expression. Nothing else changes, a walk over the clone visits each new slot once and finds there
    what a walk over the expression finds at the same place, and the clone itself is in the last
    slot. Text and value of the clone are those of the expression, which has kept them. -/
theorem cloneExpr_fresh (h : p.Acyclic (.expr e)) :
    ∃ c q visits copies, p.cloneExpr e = .ok (c, q) ∧ p.subexprs e = .ok visits ∧
      q.subexprs c = .ok copies ∧ p.Grown q (copies.map Prod.fst) ∧
      q.exprs.size = p.exprs.size + visits.length ∧
      copies.map (fun visit => visit.2.bare) = visits.map (fun visit => visit.2.bare) ∧
      c.index + 1 = q.exprs.size ∧
      q.showExpr c = p.showExpr e ∧ q.showExpr e = p.showExpr e ∧
      (p.InRange → ∃ text, p.showExpr e = .ok text) ∧
      q.evalExpr c = p.evalExpr e ∧ q.evalExpr e = p.evalExpr e := by
  obtain ⟨l, hl⟩ := h.exists_spans
  obtain ⟨c, l', q, hclone, hcopies, hgrown⟩ := hl.exists_cloneExpr
  -- The expression itself is left alone, so it is a copy of what it was.
  have hkept : Copies p q [e] l [e] l := hl.copies fun o ho => hgrown.old o (hl.index_lt ho)
  have hvisits : (p.entriesOf l).length = l'.length := by
    rw [hcopies.length_eq, ← List.length_map (f := Prod.fst), hl.map_fst_entriesOf]
  refine ⟨c, q, p.entriesOf l, q.entriesOf l', hclone, hl.subexprs_eq, hcopies.spans.subexprs_eq,
    by rwa [hcopies.spans.map_fst_entriesOf], by rw [hgrown.size_eq, hvisits],
    hcopies.map_bare_entriesOf, index_of_cloneExpr hclone, ?_, ?_, h.exists_showExpr, ?_, ?_⟩
  · exact hcopies.showExpr_eq hgrown.vars hgrown.methods
  · exact hkept.showExpr_eq hgrown.vars hgrown.methods
  · exact hcopies.evalExpr_eq hgrown.methods
  · exact hkept.evalExpr_eq hgrown.methods

end Program

/-- A variable to which is added what a pure method makes of a sum, given twice. The variable is the
    target and both operands of the sum, and the sum is both arguments. -/
def sampleTwofold : Program where
  vars := ⟨#[{ name := "x", type := .int, kind := .ofMethod }]⟩
  methods := ⟨#[{ name := "mix", returns := .int, params := [], isPure := true, body := none }]⟩
  exprs := ⟨#[.var ⟨0⟩, .binary .add ⟨0⟩ ⟨0⟩, .call ⟨0⟩ none [⟨1⟩, ⟨1⟩], .compound .add ⟨0⟩ ⟨2⟩]⟩

/-- Four expressions are visited nine times, so the clone takes nine slots. -/
theorem Program.cloneExpr_fresh_twofold :
    let m : Machine := { env := HandleMap.insert {} ⟨0⟩ 5, fuel := 8 }
    sampleTwofold.Acyclic (.expr ⟨3⟩) ∧ sampleTwofold.InRange ∧
    ∃ q visits copies, sampleTwofold.cloneExpr ⟨3⟩ = .ok (⟨12⟩, q) ∧
      sampleTwofold.subexprs ⟨3⟩ = .ok visits ∧ visits.length = 9 ∧
      q.subexprs ⟨12⟩ = .ok copies ∧ sampleTwofold.Grown q (copies.map Prod.fst) ∧
      copies.map (fun visit => visit.2.bare) = visits.map (fun visit => visit.2.bare) ∧
      q.showExpr ⟨12⟩ = .ok "x += mix(x + x, x + x)" ∧
      ((q.evalExpr ⟨12⟩).run.run m).map Prod.fst = .ok (.ok 632) := by
  intro m
  have hacyclic : sampleTwofold.Acyclic (.expr ⟨3⟩) :=
    (acyclic_of_check (show sampleTwofold.checksAcyclic 20 (.expr ⟨3⟩) = true by decide)).1
  have hrange : sampleTwofold.InRange :=
    (isTree_of_check (show sampleTwofold.checksAsTree 0 = true by decide)).inRange
  obtain ⟨c, q, visits, copies, hclone, hvisits, hcopies, hgrown, hsize, hbare, hlast, htext, _, _,
    hvalue, _⟩ := cloneExpr_fresh hacyclic
  have hcount : (sampleTwofold.subexprs ⟨3⟩).map List.length = .ok 9 := by decide
  have hshow : sampleTwofold.showExpr ⟨3⟩ = .ok "x += mix(x + x, x + x)" := by decide +kernel
  have heval : ((sampleTwofold.evalExpr ⟨3⟩).run.run m).map Prod.fst = .ok (.ok 632) := by decide
  rw [hvisits] at hcount
  have hnine : visits.length = 9 := Except.ok.inj hcount
  obtain rfl : c = ⟨12⟩ := by
    rw [hnine] at hsize
    exact Handle.index_inj.1 (Nat.succ.inj (hlast.trans hsize))
  exact ⟨hacyclic, hrange, q, visits, copies, hclone, hvisits, hnine, hcopies, hgrown, hbare,
    htext.trans hshow, by rwa [hvalue]⟩

end Dataflow
