import Dataflow.Proofs.NodeEffects
import Dataflow.Proofs.Reevaluation

/-!
# Programs that differ in one place

Two programs have different expressions in the place of one that reads a variable `v`, and are the
same otherwise. Both run alike if the two expressions have the value of `v` whenever a run comes to
that place.

That they do is found along the graph of the body. The facts there say on which edges `v` is known
to hold the value of an expression `x`. Along every run it does hold it on these edges: the value
was written by a node that evaluated `x`, `x` does not name `v`, and no node since then has changed
the state.

* `Program.Variant`: one expression is replaced by another one;
* `Setting`: where it is known along a graph that a variable holds a value;
* `Arrives`: a run has come to one of some edges, and what is known there holds;
* `Setting.computes`: expressions are evaluated alike in two variants;
* `Setting.runs`: statements run alike.
-/

namespace Dataflow

variable {p q : Program} {r c : ExprId} {ls : List StmtId} {le : List ExprId}

/-- The program `q` has the expression `c` where `p` has `r`, as far as the listed statements and
    expressions go. -/
structure Program.Variant (p q : Program) (r c : ExprId) (ls : List StmtId) (le : List ExprId) :
    Prop where
  methods : q.methods = p.methods
  stmt : ∀ t ∈ ls, q.stmts.get? t = (p.stmts.get? t).map (Stmt.redirect r c)
  expr : ∀ e ∈ le, q.exprs.get? e = (p.exprs.get? e).map (Expr.redirect r c)

/-- Every assignment among the listed expressions is to a variable, and not to `r`. -/
def Program.AssignsBeside (p : Program) (r : ExprId) (le : List ExprId) : Prop :=
  ∀ e ∈ le, ∀ x, p.exprs.get? e = some x → r ∉ x.targets ∧
    ∀ t ∈ x.targets, t ∈ le ∧ ∃ v, p.exprs.get? t = some (.var v)

theorem redirect_self (r e : ExprId) : redirect r r e = e := by
  rw [redirect]
  split
  · next h => exact h.symm
  · rfl

theorem map_redirect_self (r : ExprId) (es : List ExprId) : es.map (redirect r r) = es := by
  rw [show redirect r r = id from funext (redirect_self r), List.map_id]

theorem Program.Variant.refl (p : Program) (r : ExprId) (ls : List StmtId) (le : List ExprId) :
    p.Variant p r r ls le where
  methods := rfl
  stmt t _ := by
    rw [show Stmt.redirect r r = id from funext fun st => by
      rw [Stmt.redirect, map_redirect_self, Stmt.withExprs_exprs, id], Option.map_id, id]
  expr e _ := by
    rw [show Expr.redirect r r = id from funext fun x => by
      rw [Expr.redirect, map_redirect_self, Expr.withOperands_operands, id], Option.map_id, id]

theorem Program.Edited.variant {a : ExprId} {la lc : List ExprId} (h : p.Edited q r c a ls le la lc) :
    p.Variant q r c ls le where
  methods := h.methods
  stmt := h.stmt
  expr := h.expr

/-! ### Slots that are redirected -/

theorem Expr.evaluated_redirect (r c : ExprId) (x : Expr) :
    (x.redirect r c).evaluated = x.evaluated.map (List.map (Dataflow.redirect r c)) := by
  cases x with
  | call method receiver args => cases receiver <;> rfl
  | _ => rfl

theorem Expr.targets_redirect (r c : ExprId) (x : Expr) :
    (x.redirect r c).targets = x.targets.map (Dataflow.redirect r c) := by
  cases x with
  | call method receiver args => cases receiver <;> rfl
  | _ => rfl

/-- A statement whose slots were redirected differs from the statement in its own expressions. -/
theorem Stmt.eq_withExprs_of_redirect (r c : ExprId) (st : Stmt) :
    st = (st.redirect r c).withExprs st.exprs := by
  cases st with
  | declare v init => cases init <;> rfl
  | ret value => cases value <;> rfl
  | _ => rfl

namespace Program.Variant

variable {e : ExprId} {x : Expr}

/-- What stands in a variant for a statement is of the same form. -/
theorem exists_stmt (h : p.Variant q r c ls le) {t : StmtId} {st : Stmt} (ht : t ∈ ls)
    (hst : q.stmts.get? t = some st) :
    ∃ es, p.stmts.get? t = some (st.withExprs es) ∧ es.map (redirect r c) = st.exprs := by
  rw [h.stmt t ht] at hst
  obtain ⟨st', hst', rfl⟩ := Option.map_eq_some_iff.1 hst
  exact ⟨st'.exprs, by rw [← st'.eq_withExprs_of_redirect r c, hst'], (st'.exprs_redirect).symm⟩

/-- A statement that owns one expression, in a variant. -/
theorem exists_stmt_one (h : p.Variant q r c ls le) {t : StmtId} {st : Stmt} (ht : t ∈ ls)
    (hst : q.stmts.get? t = some st) {e' : ExprId} (hone : st.exprs = [e']) :
    ∃ e, p.stmts.get? t = some (st.withExprs [e]) ∧ redirect r c e = e' := by
  obtain ⟨es, hst, hes⟩ := h.exists_stmt ht hst
  rw [hone, List.map_eq_singleton_iff] at hes
  obtain ⟨e, rfl, he⟩ := hes
  exact ⟨e, hst, he⟩

theorem get_stmt (h : p.Variant q r c ls le) {t : StmtId} {st : Stmt} (ht : t ∈ ls)
    (hst : p.stmts.get? t = some st) : q.stmts.get? t = some (st.redirect r c) := by
  rw [h.stmt t ht, hst]
  rfl

theorem get_expr (h : p.Variant q r c ls le) (he : e ∈ le) (hx : p.exprs.get? e = some x) :
    q.exprs.get? e = some (x.redirect r c) := by
  rw [h.expr e he, hx]
  rfl

/-- An expression does the same in a variant, its operands having the same values. -/
theorem outcome_eq (h : p.Variant q r c ls le) (hassigns : p.AssignsBeside r le) (he : e ∈ le)
    (hx : p.exprs.get? e = some x) {s mid : Memory} {values : List Int64} :
    q.outcome e s values mid (x.redirect r c) = p.outcome e s values mid x := by
  obtain ⟨hr, htargets⟩ := hassigns e he x hx
  refine outcome_withOperands (List.length_map _) h.methods ?_
  rw [← Expr.redirect, Expr.targets_redirect, map_redirect_of_not_mem hr]
  refine List.map_congr_left fun t ht => ?_
  obtain ⟨htle, v, hv⟩ := htargets t ht
  rw [targetVar, targetVar, h.expr t htle, hv]
  rfl

/-- What does not hold the place is the same. -/
theorem exprs_eq (h : p.Variant q r c ls le) {roots l : List ExprId} (hl : Spans p roots l)
    (hsub : ∀ e ∈ l, e ∈ le) (hr : r ∉ l) : ∀ e ∈ l, q.exprs.get? e = p.exprs.get? e := by
  intro e he
  obtain ⟨x, hx⟩ := hl.exists_get he
  rw [h.expr e (hsub e he), hx, Option.map_some,
    Expr.redirect_of_not_mem fun hmem => hr (hl.mem_of_mem_operands he hx hmem)]

end Program.Variant

namespace Inlining

theorem effect_write_ne_keep (p : Program) (u : VarId) (y : ExprId) :
    effect .declared p (.write u y) ≠ .ok .keep := by
  rw [effect]
  rcases Oracle.declared.isTrackable p u with _ | (_ | _)
  · exact fun h => by cases h
  · exact fun h => by cases h
  · change (isInlinable .declared p u y >>= _) ≠ _
    rcases isInlinable .declared p u y with _ | (_ | _) <;> exact fun h => by cases h

/-! ### A value along a graph -/

/-- The variable `v` holds the value of the expression `x`. -/
def Holds (p : Program) (v : VarId) (x : ExprId) (m : Memory) : Prop :=
  ∃ events, Computes p [x] m events [m.read v] m

/-- Something is known where a node is entered, if it is known after all nodes before it. -/
def KnownAt (g : Graph) (known : NodeId → Prop) (n : NodeId) : Prop :=
  g.arrivals n ≠ [] ∧ ∀ a ∈ g.arrivals n, known a.1

/-- A run has come to one of the edges `ins`, in the state `m`. If the value is known on that edge,
    the variable holds it. -/
def Arrives (p : Program) (v : VarId) (x : ExprId) (known : NodeId → Prop) (ins : List OpenEdge)
    (m : Memory) : Prop :=
  ∃ a ∈ ins, known a.1 → Holds p v x m

/-- A place `r` that reads `v`, in a body with the graph `g`. It is `known` after some nodes that
    `v` holds the value of `x`, in particular after those that lead to the place. Here `ls` and
    `le` list everything in the body, and `la` everything inside `x`. -/
structure Setting (p : Program) (g : Graph) (v : VarId) (r x : ExprId) (ls : List StmtId)
    (le la : List ExprId) (known : NodeId → Prop) : Prop where
  inRange : p.InRange
  stmts : ∃ ss, StmtSpans p ss ls le
  assigns : p.AssignsBeside r le
  spans : Spans p [x] la
  subset : ∀ e ∈ la, e ∈ le
  inert : p.Inert la
  avoids : p.Avoids la v
  var : p.exprs.get? r = some (.var v)
  step : ∀ n ∈ g.order, ∀ node, g.nodes.get? n = some node → known n →
    effect .declared p node.kind = .ok .keep ∧ KnownAt g known n ∨ node.kind = .write v x
  place : ∀ n ∈ g.order, ∀ parent, g.nodes.get? n = some ⟨.read v, .expr r, parent⟩ →
    KnownAt g known n

/-- A variant whose expression in the place has the value that is read there, if that is known. -/
structure Fits (p q : Program) (v : VarId) (r c x : ExprId) (ls : List StmtId) (le : List ExprId) :
    Prop extends p.Variant q r c ls le where
  place : ∀ m, Holds p v x m → ∃ events, Computes q [c] m events [m.read v] m

theorem KnownAt.holds {g : Graph} {known : NodeId → Prop} {n : NodeId} {kind : NodeKind}
    {origin : Origin} {parent : Option NodeId} {ins : List OpenEdge} {v : VarId} {x : ExprId}
    {m : Memory} (h : KnownAt g known n) (hn : Sits g n kind origin parent ins)
    (hin : ins ≠ [] → Arrives p v x known ins m) : Holds p v x m := by
  obtain ⟨hne, hall⟩ := h
  rw [hn.arrivals] at hne hall
  obtain ⟨a, ha, hholds⟩ := hin hne
  exact hholds (hall a ha)

/-- What an expression does itself: nothing, or one operation. If the operation has no effect on
    facts it leaves the state alone, and if it is a write then of the value just evaluated. -/
theorem own_cases {e : ExprId} {x : Expr} {ins : List ExprId} {own : List Operation}
    {s mid s' : Memory} {values : List Int64} {a : Int64} {events : List Event} (hp : p.InRange)
    (hx : p.exprs.get? e = some x) (hvars : ∀ t ∈ x.targets, ∃ v, p.exprs.get? t = some (.var v))
    (hemits : p.emits e x = some (ins, own)) (hact : p.act e s values mid x = some (a, s', events)) :
    own = [] ∧ s' = mid ∨ ∃ o, own = [o] ∧ (effect .declared p o.kind = .ok .keep → s' = mid) ∧
      ∀ u y, o.kind = .write u y → ins = [y] ∧ values.head? = some a ∧ s' = mid.write u a := by
  cases x with
  | int | bool | null =>
    cases hact
    cases hemits
    exact .inl ⟨rfl, rfl⟩
  | var u =>
    cases hact
    cases hemits
    refine .inr ⟨_, rfl, fun _ => rfl, fun u y hw => ?_⟩
    cases hw
  | unary | binary =>
    cases hemits
    exact .inl ⟨rfl, (Program.act_of_inert rfl hact).1⟩
  | assign t y =>
    obtain ⟨u, hu⟩ := hvars t (List.mem_singleton_self t)
    rw [Program.emits, (Program.target_of_var hu).1] at hemits
    simp only [Program.act, (Program.target_of_var hu).2, Option.bind_eq_bind, Option.bind_some,
      Option.bind_eq_some_iff] at hact
    obtain ⟨b, hb, hact⟩ := hact
    cases hact
    cases hemits
    refine .inr ⟨_, rfl, fun hkeep => absurd hkeep (effect_write_ne_keep p u y), fun u' y' hw => ?_⟩
    cases hw
    exact ⟨rfl, hb, rfl⟩
  | compound op t | increment op t =>
    obtain ⟨u, hu⟩ := hvars t (List.mem_singleton_self t)
    rw [Program.emits, (Program.target_of_var hu).1] at hemits
    cases hemits
    exact .inr ⟨_, rfl, fun hkeep => (by cases hkeep), fun u' y' hw => (by cases hw)⟩
  | call method receiver args =>
    cases hemits
    refine .inr ⟨_, rfl, fun hkeep => ?_, fun u' y' hw => (by cases hw)⟩
    have himpure : p.impureHead (.call method receiver args) = false := by
      rw [effect_call hp hx (.inl ⟨_, _, _, rfl⟩)] at hkeep
      split at hkeep
      · cases hkeep
      · next hne => exact Bool.eq_false_iff.2 hne
    exact (Program.act_of_inert himpure hact).1
  | field | newObject | newArray => cases hact

namespace Setting

variable {g : Graph} {v : VarId} {x : ExprId} {la : List ExprId} {known : NodeId → Prop}
  {n : NodeId} {kind : NodeKind} {origin : Origin} {parent : Option NodeId}
  {ins outs ends : List OpenEdge} {ns : List NodeId} {m m' mid : Memory}
  (h : Setting p g v r x ls le la known)
include h

theorem not_mem : r ∉ la := fun hr => h.avoids r hr _ h.var rfl

/-- After the value of `x` is written to `v`, in any variant, `v` holds it. -/
theorem holds_write (hq : p.Variant q r c ls le) {events : List Event} {a : Int64}
    (hcomp : Computes q [redirect r c x] m events [a] mid) : Holds p v x (mid.write v a) := by
  have hx : x ∈ la := h.spans.mem_of_mem_roots (List.mem_singleton_self x)
  rw [redirect, if_neg (ne_of_mem_of_not_mem hx h.not_mem)] at hcomp
  have hsame := hq.exprs_eq h.spans h.subset h.not_mem
  have hp : Computes p [x] m events [a] mid := hcomp.congr (h.spans.congr hsame)
    (fun _ => h.spans.mem_of_mem_roots) (fun e he => (hsame e he).symm) hq.methods.symm
  have hmid := hp.eq_of_inert h.spans (fun _ => h.spans.mem_of_mem_roots) h.inert
  have hwrite := hp.write_of_inert h.spans (fun _ => h.spans.mem_of_mem_roots) h.inert h.avoids a
  rw [← hmid] at hwrite
  exact ⟨events, by rwa [Memory.read_write_self]⟩

/-- A run past a node. -/
theorem arrives (hn : Sits g n kind origin parent ins) (hmem : n ∈ g.order)
    (hin : ins ≠ [] → Arrives p v x known ins m)
    (hkeep : effect .declared p kind = .ok .keep → m' = m)
    (hwrite : kind = .write v x → Holds p v x m') (label : Option Label) :
    Arrives p v x known [(n, label)] m' := by
  refine ⟨_, List.mem_singleton_self _, fun hknown => ?_⟩
  rcases h.step n hmem _ hn.node hknown with ⟨hkind, hat⟩ | hkind
  · exact hkeep hkind ▸ hat.holds hn hin
  · exact hwrite hkind

/-- A run past a node that neither writes nor calls. -/
theorem arrives_same (hn : Sits g n kind origin parent ins) (hmem : n ∈ g.order)
    (hin : ins ≠ [] → Arrives p v x known ins m) (hkind : kind ≠ .write v x)
    (label : Option Label) : Arrives p v x known [(n, label)] m :=
  h.arrives hn hmem hin (fun _ => rfl) (fun hw => absurd hw hkind) label

/-- A run past nodes that do nothing. -/
theorem arrives_nil (hrow : Spelled g parent [] ins ns outs ends) (hns : ∀ k ∈ ns, k ∈ g.order)
    (hin : Arrives p v x known ins m) : Arrives p v x known outs m := by
  generalize hos : [] = os at hrow
  induction hrow with
  | nil => exact hin
  | op | call => cases hos
  | nop hn _ ih =>
    rw [List.forall_mem_cons] at hns
    exact ih hns.2 (h.arrives_same hn hns.1 (fun _ => hin) (by simp) none) hos

/-- A run past the nodes of one operation. -/
theorem arrives_one {o : Operation} (hrow : Spelled g parent [o] ins ns outs ends)
    (hns : ∀ k ∈ ns, k ∈ g.order) (hin : Arrives p v x known ins m)
    (hkeep : effect .declared p o.kind = .ok .keep → m' = m)
    (hwrite : o.kind = .write v x → Holds p v x m') : Arrives p v x known outs m' := by
  generalize hos : [o] = os at hrow
  induction hrow with
  | nil => cases hos
  | op hn hrest =>
    cases hos
    rw [List.forall_mem_cons] at hns
    exact h.arrives_nil hrest hns.2 (h.arrives hn hns.1 (fun _ => hin) hkeep hwrite none)
  | call hcall hthrow hn hrest =>
    cases hos
    rw [List.forall_mem_cons, List.forall_mem_cons] at hns
    have hbetween := h.arrives_same hthrow hns.1 (fun _ => hin) (by simp) (some .noThrow)
    exact h.arrives_nil hrest hns.2.2
      (h.arrives hn hns.2.1 (fun _ => hbetween) (hcall ▸ hkeep) (hcall ▸ hwrite) none)
  | nop hn _ ih =>
    rw [List.forall_mem_cons] at hns
    exact ih hns.2 (h.arrives_same hn hns.1 (fun _ => hin) (by simp) none) hos

/-- At the place, the variable holds the value. -/
theorem arrives_place (hrow : Spelled g parent [⟨.read v, r⟩] ins ns outs ends)
    (hns : ∀ k ∈ ns, k ∈ g.order) (hin : Arrives p v x known ins m) :
    Holds p v x m ∧ Arrives p v x known outs m := by
  refine ⟨?_, h.arrives_one hrow hns hin (fun _ => rfl) (by simp)⟩
  obtain ⟨_, k, _, _, hnops, hk, _, rfl⟩ := hrow.of_cons (by simp)
  rw [List.forall_mem_append, List.forall_mem_cons] at hns
  exact (h.place k hns.2.1 _ hk.node).holds hk fun _ => h.arrives_nil hnops hns.1 hin

/-- A run past what an expression does itself, its operands being evaluated in some variant. -/
theorem arrives_own (hq : p.Variant q r c ls le) {e : ExprId} {y : Expr} {operands : List ExprId}
    {own : List Operation} {before events : List Event} {values : List Int64} {a : Int64}
    (hy : p.exprs.get? e = some y) (hvars : ∀ t ∈ y.targets, ∃ u, p.exprs.get? t = some (.var u))
    (hemits : p.emits e y = some (operands, own))
    (hvalues : Computes q (operands.map (redirect r c)) m before values mid)
    (hact : p.act e m values mid y = some (a, m', events))
    (hrow : Spelled g parent own ins ns outs ends) (hns : ∀ k ∈ ns, k ∈ g.order)
    (hin : Arrives p v x known ins mid) : Arrives p v x known outs m' := by
  rcases own_cases h.inRange hy hvars hemits hact with ⟨rfl, rfl⟩ | ⟨o, rfl, hkeep, hwrite⟩
  · exact h.arrives_nil hrow hns hin
  · refine h.arrives_one hrow hns hin hkeep fun hkind => ?_
    obtain ⟨rfl, hhead, rfl⟩ := hwrite v x hkind
    obtain ⟨b, rfl⟩ := hvalues.exists_value
    cases hhead
    exact h.holds_write hq hvalues

/-- Expressions that are evaluated in one variant are evaluated alike in the other one. -/
theorem computes {q' : Program} {c' : ExprId} (hq : Fits p q v r c x ls le)
    (hq' : Fits p q' v r c' x ls le) {es l : List ExprId} {os : List Operation}
    {events : List Event} {values : List Int64} (hem : Emits p es l os) (hl : ∀ e ∈ l, e ∈ le)
    (hrow : Spelled g parent os ins ns outs ends) (hns : ∀ k ∈ ns, k ∈ g.order)
    (hin : Arrives p v x known ins m)
    (hcomp : Computes q (es.map (redirect r c)) m events values m') :
    (∃ events', Computes q' (es.map (redirect r c')) m events' values m') ∧
      Arrives p v x known outs m' := by
  -- The induction is on what is evaluated and not on the evaluation, which is longer in a variant.
  induction hem generalizing ins ns outs ends m events values m' with
  | nil =>
    cases hcomp
    exact ⟨⟨_, .nil⟩, h.arrives_nil hrow hns hin⟩
  | @cons e y operands own es inner rest before after he hy hinner _ ih₁ ih₂ =>
    rw [List.forall_mem_cons, List.forall_mem_append] at hl
    obtain ⟨hel, hinnerl, hrestl⟩ := hl
    obtain ⟨ns₁, ns', mid₁, ends₁, ends', hbefore, hrow', rfl, rfl⟩ := hrow.of_append
    obtain ⟨ns₂, ns₃, mid₂, ends₂, ends₃, hown, hafter, rfl, rfl⟩ := hrow'.of_append
    rw [List.forall_mem_append, List.forall_mem_append] at hns
    rw [List.map_cons] at hcomp ⊢
    by_cases her : e = r
    · -- The place: both expressions have the value that is read.
      subst her
      cases he.symm.trans h.var
      cases hy
      cases hinner
      obtain ⟨hholds, hnext⟩ := h.arrives_place hown hns.2.1 (h.arrives_nil hbefore hns.1 hin)
      rw [redirect, if_pos rfl] at hcomp ⊢
      obtain ⟨_, hread⟩ := hq.place m hholds
      obtain ⟨_, hread'⟩ := hq'.place m hholds
      cases hcomp with
      | cons hx hins hvalues hact hcomp =>
        obtain ⟨_, hvalue, rfl⟩ := hread.unique (.one hx hins hvalues hact)
        cases hvalue
        obtain ⟨⟨_, hcomp'⟩, houts⟩ := ih₂ hrestl hafter hns.2.2 hnext hcomp
        exact ⟨⟨_, hread'.append hcomp'⟩, houts⟩
    · rw [redirect, if_neg her] at hcomp ⊢
      have hvars : ∀ t ∈ y.targets, ∃ u, p.exprs.get? t = some (.var u) :=
        fun t ht => ((h.assigns e hel y he).2 t ht).2
      cases hcomp with
      | cons hx hins hvalues hact hcomp =>
        cases (hq.get_expr hel he).symm.trans hx
        rw [Expr.evaluated_redirect, Option.map_eq_some_iff] at hins
        obtain ⟨_, hins, rfl⟩ := hins
        -- What the expression does itself is the same in all variants.
        have houtcome := Program.outcome_eq_some.2 ⟨_, hact⟩
        rw [hq.outcome_eq h.assigns hel he] at houtcome
        obtain ⟨_, hact₀⟩ := Program.outcome_eq_some.1 houtcome
        rw [← hq'.outcome_eq h.assigns hel he] at houtcome
        obtain ⟨_, hact'⟩ := Program.outcome_eq_some.1 houtcome
        obtain ⟨rfl, _⟩ := Program.emits_of_act hvars hins hact₀ hy
        obtain ⟨⟨_, hvalues'⟩, harrives⟩ := ih₁ hinnerl hbefore hns.1 hin hvalues
        have hnext := h.arrives_own hq.toVariant he hvars hy hvalues hact₀ hown hns.2.1 harrives
        obtain ⟨⟨_, hcomp'⟩, houts⟩ := ih₂ hrestl hafter hns.2.2 hnext hcomp
        have hins' : (y.redirect r c').evaluated = some (operands.map (redirect r c')) := by
          rw [Expr.evaluated_redirect, hins]
          rfl
        exact ⟨⟨_, .cons (hq'.get_expr hel he) hins' hvalues' hact' hcomp'⟩, houts⟩

/-! ### Statements run alike -/

section Statements

variable {q' : Program} {c' : ExprId} (hq : Fits p q v r c x ls le) (hq' : Fits p q' v r c' x ls le)
  {s : StmtId} {st : Stmt} {events : List Event} {values : List Int64} (hs : s ∈ ls)
  (hst : p.stmts.get? s = some st)
include hq hq' hs hst

/-- The own expressions of a statement. -/
theorem computes_own {os : List Operation} (hos : p.Spells st.exprs os)
    (hrow : Spelled g parent os ins ns outs ends) (hns : ∀ k ∈ ns, k ∈ g.order)
    (hin : Arrives p v x known ins m)
    (hcomp : Computes q (st.exprs.map (redirect r c)) m events values m') :
    (∃ events', Computes q' (st.exprs.map (redirect r c')) m events' values m') ∧
      Arrives p v x known outs m' := by
  obtain ⟨l, hem⟩ := Emits.exists_of_spells hos
  obtain ⟨ss, hspans⟩ := h.stmts
  obtain ⟨st', _, own, _, hst', how, _, _, hsub⟩ := hspans.exists_sublist hs
  cases hst.symm.trans hst'
  refine h.computes hq hq' hem (fun e he => hsub.subset (List.mem_append_left _ ?_)) hrow hns hin
    hcomp
  exact (hem.perm how).mem_iff.2 (List.mem_append_left _ he)

/-- A statement from its own node to the end of its row. -/
theorem computes_plain (hhead : Headed g p parent s st [] ins ns outs ends)
    (hlast : st.lastKind = none) (hns : ∀ k ∈ ns, k ∈ g.order)
    (hin : ins ≠ [] → Arrives p v x known ins m)
    (hcomp : Computes q (st.exprs.map (redirect r c)) m events values m') :
    (∃ events', Computes q' (st.exprs.map (redirect r c')) m events' values m') ∧
      Arrives p v x known outs m' := by
  obtain ⟨os, n, row, rfl, hn, hos, hrow⟩ := hhead.exists_plain hlast
  rw [List.forall_mem_cons] at hns
  exact h.computes_own hq hq' hs hst hos hrow hns.2 (h.arrives_same hn hns.1 hin (by simp) none) hcomp

/-- A statement from its own node to what it does last. -/
theorem computes_last (hhead : Headed g p parent s st [] ins ns outs ends)
    (hlast : st.lastKind = some kind) (hns : ∀ k ∈ ns, k ∈ g.order)
    (hin : ins ≠ [] → Arrives p v x known ins m)
    (hcomp : Computes q (st.exprs.map (redirect r c)) m events values m') :
    (∃ events', Computes q' (st.exprs.map (redirect r c')) m events' values m') ∧
      ∃ n k before, outs = [(k, none)] ∧ k ∈ g.order ∧ Sits g k kind (.stmt s) n before ∧
        Arrives p v x known before m' := by
  obtain ⟨os, n, k, row, before, rfl, rfl, hn, hos, hrow, hk⟩ := hhead.exists_last hlast
  rw [List.forall_mem_cons, List.forall_mem_append] at hns
  obtain ⟨hcomp', hbefore⟩ := h.computes_own hq hq' hs hst hos hrow hns.2.1
    (h.arrives_same hn hns.1 hin (by simp) none) hcomp
  exact ⟨hcomp', some n, k, before, rfl, hns.2.2 k (List.mem_singleton_self k), hk, hbefore⟩

end Statements

end Setting

/-- Wherever a task is laid out in the graph, the variant `q'` runs it from one state to the other,
    with tests that go as given, and if it gets to its end, the run goes on from there. -/
def RunsAlike (p : Program) (g : Graph) (v : VarId) (r x : ExprId) (ls : List StmtId)
    (known : NodeId → Prop) (q' : Program) (c c' : ExprId) (m : Memory) (went : List Bool)
    (d : Completion) (m' : Memory) : Task → Prop
  | .stmt s => ∀ {parent : Option NodeId} {ins outs ends : List OpenEdge} {ns : List NodeId},
    s ∈ ls → Laid g p parent (.stmt s) ins ns outs ends → (∀ k ∈ ns, k ∈ g.order) →
    (ins ≠ [] → Arrives p v x known ins m) →
    (∃ events, Runs q' (.stmt s) m events d m' ∧ tests events = went) ∧
      (d = .normal → Arrives p v x known outs m')
  | .seq ss => ∀ {parent : Option NodeId} {ins outs ends : List OpenEdge} {ns : List NodeId},
    (∀ s ∈ ss, s ∈ ls) → Laid g p parent (.seq ss) ins ns outs ends → (∀ k ∈ ns, k ∈ g.order) →
    Arrives p v x known ins m →
    (∃ events, Runs q' (.seq ss) m events d m' ∧ tests events = went) ∧
      (d = .normal → Arrives p v x known outs m')
  | .loop s e' t => ∀ {e : ExprId} {os : List Operation} {n k : NodeId} {row ts : List NodeId}
    {before back ends ends' : List OpenEdge}, s ∈ ls → p.stmts.get? s = some (.loop e t) →
    e' = redirect r c e → p.Spells [e] os →
    Spelled g (some n) os ((n, none) :: back) row before ends →
    Sits g k (.conditional e) (.stmt s) (some n) before →
    Laid g p (some n) (.stmt t) [(k, some .thenBranch)] ts back ends' →
    (∀ j ∈ row, j ∈ g.order) → k ∈ g.order → (∀ j ∈ ts, j ∈ g.order) →
    Arrives p v x known ((n, none) :: back) m →
    (∃ events, Runs q' (.loop s (redirect r c' e) t) m events d m' ∧ tests events = went) ∧
      (d = .normal → Arrives p v x known [(k, some .elseBranch)] m')

theorem Arrives.mono {v : VarId} {x : ExprId} {known : NodeId → Prop} {ins ins' : List OpenEdge}
    {m : Memory} (h : Arrives p v x known ins m) (hsub : ∀ a ∈ ins, a ∈ ins') :
    Arrives p v x known ins' m := by
  obtain ⟨a, ha, hholds⟩ := h
  exact ⟨a, hsub a ha, hholds⟩

/-- A run of one variant is a run of the other one. -/
theorem Setting.runs {g : Graph} {v : VarId} {x : ExprId} {la : List ExprId} {known : NodeId → Prop}
    {q' : Program} {c' : ExprId} {task : Task} {m m' : Memory} {events : List Event} {d : Completion}
    (h : Setting p g v r x ls le la known) (hq : Fits p q v r c x ls le)
    (hq' : Fits p q' v r c' x ls le) (hrun : Runs q task m events d m') :
    RunsAlike p g v r x ls known q' c c' m (tests events) d m' task := by
  obtain ⟨roots, hspans⟩ := h.stmts
  -- The statements of the variant that runs are looked up in `p`, where they are laid out.
  induction hrun with
  | block hs' _ ih =>
    intro parent ins outs ends ns hs hlaid hns hin
    obtain ⟨_, hst, _⟩ := hq.exists_stmt hs hs'
    obtain ⟨n, rest, rfl, hn, hinner⟩ := hlaid.of_block hst
    rw [List.forall_mem_cons] at hns
    obtain ⟨⟨_, hrun, htests⟩, hout⟩ := ih (fun t ht => hspans.mem_of_mem_children hs hst ht) hinner
      hns.2 (h.arrives_same hn hns.1 hin (by simp) none)
    exact ⟨⟨_, .block (hq'.get_stmt hs hst) hrun, htests⟩, hout⟩
  | declare hs' =>
    intro parent ins outs ends ns hs hlaid hns hin
    obtain ⟨_, hst, _⟩ := hq.exists_stmt hs hs'
    obtain ⟨_, hout⟩ :=
      h.computes_plain hq hq' hs hst (hlaid.of_straight hst rfl) rfl hns hin .nil
    exact ⟨⟨_, .declare (hq'.get_stmt hs hst), rfl⟩, fun _ => hout⟩
  | init hs' he =>
    intro parent ins outs ends ns hs hlaid hns hin
    obtain ⟨e, hst, rfl⟩ := hq.exists_stmt_one hs hs' rfl
    obtain ⟨⟨_, hcomp⟩, n, k, before, rfl, hk, hsits, hbefore⟩ :=
      h.computes_last hq hq' hs hst (hlaid.of_straight hst rfl) rfl hns hin he
    refine ⟨⟨_, .init (hq'.get_stmt hs hst) hcomp, ?_⟩, fun _ => ?_⟩
    · simp [hcomp.tests_eq_nil, he.tests_eq_nil]
    refine h.arrives hsits hk (fun _ => hbefore)
      (fun hkeep => absurd hkeep (effect_write_ne_keep p _ _)) (fun hkind => ?_) none
    cases hkind
    exact h.holds_write hq.toVariant he
  | expr hs' he =>
    intro parent ins outs ends ns hs hlaid hns hin
    obtain ⟨e, hst, rfl⟩ := hq.exists_stmt_one hs hs' rfl
    obtain ⟨⟨_, hcomp⟩, hout⟩ :=
      h.computes_plain hq hq' hs hst (hlaid.of_straight hst rfl) rfl hns hin he
    refine ⟨⟨_, .expr (hq'.get_stmt hs hst) hcomp, ?_⟩, fun _ => hout⟩
    rw [hcomp.tests_eq_nil, he.tests_eq_nil]
  | thenBranch hs' he hne _ ih =>
    intro parent ins outs ends ns hs hlaid hns hin
    obtain ⟨e, hst, rfl⟩ := hq.exists_stmt_one hs hs' rfl
    obtain ⟨n, k, row, ts, es, outs₁, outs₂, _, _, _, rfl, rfl, _, hhead, hthen, _⟩ :=
      hlaid.of_branch hst
    rw [← List.cons_append, List.forall_mem_append, List.forall_mem_append] at hns
    obtain ⟨⟨_, hcomp⟩, _, _, before, hout, hk, hsits, hbefore⟩ :=
      h.computes_last hq hq' hs hst hhead rfl hns.1 hin he
    cases hout
    obtain ⟨⟨_, hrun, htests⟩, hout⟩ := ih (hspans.mem_of_mem_children hs hst List.mem_cons_self) hthen
      hns.2.1 fun _ => h.arrives_same hsits hk (fun _ => hbefore) (by simp) _
    refine ⟨⟨_, .thenBranch (hq'.get_stmt hs hst) hcomp hne hrun, ?_⟩, fun hd =>
      (hout hd).mono fun a ha => List.mem_append_right _ ha⟩
    simp [hcomp.tests_eq_nil, he.tests_eq_nil, htests]
  | elseBranch hs' he _ ih =>
    intro parent ins outs ends ns hs hlaid hns hin
    obtain ⟨e, hst, rfl⟩ := hq.exists_stmt_one hs hs' rfl
    obtain ⟨n, k, row, ts, es, outs₁, outs₂, _, _, _, rfl, rfl, _, hhead, _, helse⟩ :=
      hlaid.of_branch hst
    rw [← List.cons_append, List.forall_mem_append, List.forall_mem_append] at hns
    obtain ⟨⟨_, hcomp⟩, _, _, before, hout, hk, hsits, hbefore⟩ :=
      h.computes_last hq hq' hs hst hhead rfl hns.1 hin he
    cases hout
    obtain ⟨⟨_, hrun, htests⟩, hout⟩ := ih
      (fun t ht => hspans.mem_of_mem_children hs hst (List.mem_cons_of_mem _ ht)) helse hns.2.2
      (h.arrives_same hsits hk (fun _ => hbefore) (by simp) _)
    refine ⟨⟨_, .elseBranch (hq'.get_stmt hs hst) hcomp hrun, ?_⟩, fun hd =>
      (hout hd).mono fun a ha => List.mem_append_left _ ha⟩
    simp [hcomp.tests_eq_nil, he.tests_eq_nil, htests]
  | loop hs' _ ih =>
    intro parent ins outs ends ns hs hlaid hns hin
    obtain ⟨e, hst, rfl⟩ := hq.exists_stmt_one hs hs' rfl
    obtain ⟨n, k, row, ts, back, _, _, rfl, rfl, _, hhead, hbody⟩ := hlaid.of_loop hst
    obtain ⟨os, n', k', row', before, hrow, hout, hn, hos, hspelled, hk⟩ := hhead.exists_last rfl
    obtain ⟨rfl, rfl⟩ := List.cons.inj hrow
    cases hout
    rw [List.forall_mem_cons, List.forall_mem_append, List.forall_mem_append] at hns
    have henter := h.arrives_same hn hns.1 hin (by simp) none
    obtain ⟨⟨_, hrun, htests⟩, hout⟩ := ih hs hst rfl hos hspelled hk hbody hns.2.1.1
      (hns.2.1.2 k (List.mem_singleton_self k)) hns.2.2
      (henter.mono fun a ha => List.mem_singleton.1 ha ▸ List.mem_cons_self)
    exact ⟨⟨_, .loop (hq'.get_stmt hs hst) hrun, htests⟩, hout⟩
  | @ret _ value' _ _ _ _ hs' he =>
    intro parent ins outs ends ns hs hlaid hns hin
    cases value' with
    | none =>
      obtain ⟨_, hst, _⟩ := hq.exists_stmt hs hs'
      obtain ⟨_, _, rfl, _, hhead⟩ := hlaid.of_ret hst
      obtain ⟨⟨_, hcomp⟩, _⟩ := h.computes_last hq hq' hs hst hhead rfl hns hin he
      refine ⟨⟨_, .ret (hq'.get_stmt hs hst) hcomp, ?_⟩, fun hd => by cases hd⟩
      simp [hcomp.tests_eq_nil, he.tests_eq_nil]
    | some e' =>
      obtain ⟨e, hst, rfl⟩ := hq.exists_stmt_one hs hs' rfl
      obtain ⟨_, _, rfl, _, hhead⟩ := hlaid.of_ret hst
      obtain ⟨⟨_, hcomp⟩, _⟩ := h.computes_last hq hq' hs hst hhead rfl hns hin he
      refine ⟨⟨_, .ret (hq'.get_stmt hs hst) hcomp, ?_⟩, fun hd => by cases hd⟩
      simp [hcomp.tests_eq_nil, he.tests_eq_nil]
  | nil =>
    intro parent ins outs ends ns _ hlaid _ hin
    cases hlaid
    exact ⟨⟨_, .nil, rfl⟩, fun _ => hin⟩
  | next _ _ ih₁ ih₂ =>
    intro parent ins outs ends ns hss hlaid hns hin
    rw [List.forall_mem_cons] at hss
    cases hlaid with
    | cons hfirst hrest =>
      rw [List.forall_mem_append] at hns
      obtain ⟨⟨_, hrun, htests⟩, hmid⟩ := ih₁ hss.1 hfirst hns.1 fun _ => hin
      obtain ⟨⟨_, hrun', htests'⟩, hout⟩ := ih₂ hss.2 hrest hns.2 (hmid rfl)
      exact ⟨⟨_, .next hrun hrun', by rw [tests_append, tests_append, htests, htests']⟩, hout⟩
  | stop _ ih =>
    intro parent ins outs ends ns hss hlaid hns hin
    rw [List.forall_mem_cons] at hss
    cases hlaid with
    | cons hfirst hrest =>
      rw [List.forall_mem_append] at hns
      obtain ⟨⟨_, hrun, htests⟩, _⟩ := ih hss.1 hfirst hns.1 fun _ => hin
      refine ⟨⟨_, .stop hrun, htests⟩, fun hd => ?_⟩
      cases hd
  | exit he =>
    intro e os n k row ts before back ends ends' hs hst heq hos hrow hk _ hrowmem hkmem _ hin
    subst heq
    obtain ⟨⟨_, hcomp⟩, hbefore⟩ := h.computes_own hq hq' hs hst hos hrow hrowmem hin he
    refine ⟨⟨_, .exit hcomp, ?_⟩, fun _ => h.arrives_same hk hkmem (fun _ => hbefore) (by simp) _⟩
    simp [hcomp.tests_eq_nil, he.tests_eq_nil]
  | again he hne _ _ ih₁ ih₂ =>
    intro e os n k row ts before back ends ends' hs hst heq hos hrow hk hbody hrowmem hkmem hts hin
    subst heq
    obtain ⟨⟨_, hcomp⟩, hbefore⟩ := h.computes_own hq hq' hs hst hos hrow hrowmem hin he
    obtain ⟨⟨_, hrun, htests⟩, hback⟩ := ih₁ (hspans.mem_of_mem_children hs hst List.mem_cons_self)
      hbody hts fun _ => h.arrives_same hk hkmem (fun _ => hbefore) (by simp) _
    -- The body leads back behind the loop's own node.
    obtain ⟨⟨_, hrun', htests'⟩, hout⟩ := ih₂ hs hst rfl hos hrow hk hbody hrowmem hkmem hts
      ((hback rfl).mono fun a ha => List.mem_cons_of_mem _ ha)
    refine ⟨⟨_, .again hcomp hne hrun hrun', ?_⟩, hout⟩
    simp [hcomp.tests_eq_nil, he.tests_eq_nil, htests, htests']
  | leave he hne _ ih =>
    intro e os n k row ts before back ends ends' hs hst heq hos hrow hk hbody hrowmem hkmem hts hin
    subst heq
    obtain ⟨⟨_, hcomp⟩, hbefore⟩ := h.computes_own hq hq' hs hst hos hrow hrowmem hin he
    obtain ⟨⟨_, hrun, htests⟩, _⟩ := ih (hspans.mem_of_mem_children hs hst List.mem_cons_self) hbody
      hts fun _ => h.arrives_same hk hkmem (fun _ => hbefore) (by simp) _
    refine ⟨⟨_, .leave hcomp hne hrun, ?_⟩, fun hd => ?_⟩
    · simp [hcomp.tests_eq_nil, he.tests_eq_nil, htests]
    · cases hd

/-- Two variants have the same runs of the body, in which all tests go the same way. -/
theorem Setting.exists_runs_iff {g : Graph} {v : VarId} {x : ExprId} {la : List ExprId}
    {known : NodeId → Prop} {body : StmtId} {m m' : Memory} {went : List Bool} {d : Completion}
    (h : Setting p g v r x ls le la known) (hlaid : g.LaidOut p body) (hbody : body ∈ ls)
    {q' : Program} {c' : ExprId} (hq : Fits p q v r c x ls le) (hq' : Fits p q' v r c' x ls le) :
    (∃ events, Runs q (.stmt body) m events d m' ∧ tests events = went) ↔
      ∃ events, Runs q' (.stmt body) m events d m' ∧ tests events = went := by
  obtain ⟨ns, last, outs, ends, horder, hlaid, _⟩ := hlaid
  have hns : ∀ k ∈ ns, k ∈ g.order := by
    rw [horder]
    exact fun k hk => List.mem_append_left _ hk
  constructor
  · rintro ⟨_, hrun, rfl⟩
    exact (h.runs hq hq' hrun hbody hlaid hns fun hne => absurd rfl hne).1
  · rintro ⟨_, hrun, rfl⟩
    exact (h.runs hq' hq hrun hbody hlaid hns fun hne => absurd rfl hne).1

end Inlining

end Dataflow
