import Dataflow.Proofs.Effects
import Dataflow.Proofs.Rewrites

/-!
# The effects of nodes

In a graph that follows a body of a tree program every node has an effect. A rewrite may change the
effect of one node only: the node that writes the value in which the variable was read, if that
value is inert (`Inlined.hasEffect`). This node stands right behind the operations of the value,
none of which has an effect.

* `exists_hasEffect`: every node has an effect;
* `HasEffect.of_put`: a node that puts a known value writes it, and it is inlinable;
* `keep_of_inert`: the operations of an inert value change nothing;
* `Inlined.hasEffect`: the effects after a rewrite.
-/

namespace Dataflow

namespace Inlining

variable {p q : Program} {g g' : Graph} {n m : NodeId} {ls : List StmtId} {le : List ExprId}
  {body : StmtId} {v : VarId} {y : ExprId} {f : Effect}

/-! ### Effects of operations -/

/-- What is remembered of the value `y` that is written to `v`, where `l` lists all that is inside
    it: `y` itself if it may be evaluated again. -/
def Remembers (p : Program) (v : VarId) (y : ExprId) (l : List ExprId) (value : Option ExprId) :
    Prop :=
  value = some y ∧ p.Inert l ∧ p.Avoids l v ∨ value = none ∧ ¬(p.Inert l ∧ p.Avoids l v)

theorem Remembers.unique {l : List ExprId} {value value' : Option ExprId}
    (h : Remembers p v y l value) (h' : Remembers p v y l value') : value = value' := by
  rcases h with ⟨rfl, h⟩ | ⟨rfl, h⟩ <;> rcases h' with ⟨rfl, h'⟩ | ⟨rfl, h'⟩
  · rfl
  · exact absurd h h'
  · exact absurd h' h
  · rfl

theorem effect_write (hp : p.InRange) (hv : v.index < p.vars.size) {l : List ExprId}
    (hy : Spans p [y] l) :
    ∃ tracked value, p.isOfMethod v = .ok tracked ∧ Remembers p v y l value ∧
      effect .declared p (.write v y) = .ok (if tracked then .put v value else .spare v) := by
  obtain ⟨decl, hdecl⟩ := Arena.exists_get?_of_lt hv
  obtain ⟨inlinable, hinlinable, hiff⟩ := isInlinable_iff hp hy v
  have htracked : p.isOfMethod v = .ok (decide (decl.kind ≠ .field)) :=
    Program.isOfMethod_eq_ok.2 ⟨decl, hdecl, decide_eq_true_iff⟩
  generalize decide (decl.kind ≠ .field) = tracked at htracked
  refine ⟨tracked, if inlinable then some y else none, htracked, ?_, ?_⟩
  · cases inlinable with
    | true => exact .inl ⟨rfl, hiff.1 rfl⟩
    | false => exact .inr ⟨rfl, fun h => Bool.noConfusion (hiff.2 h)⟩
  · rw [effect, show Oracle.declared.isTrackable p v = _ from htracked]
    cases tracked with
    | false => rfl
    | true =>
      change (isInlinable .declared p v y >>= _) = _
      rw [hinlinable]
      cases inlinable <;> rfl

/-- A call of a pure method changes nothing, any other one forgets everything. -/
theorem effect_call (hp : p.InRange) {e : ExprId} {x : Expr} (hx : p.exprs.get? e = some x)
    (hcall : (∃ method receiver args, x = .call method receiver args) ∨ ∃ c, x = .newObject c) :
    effect .declared p (.call e) = .ok (if p.impureHead x then .forget else .keep) := by
  have himpure : p.callIsImpure e = .ok (p.impureHead x) := by
    rw [← Program.isImpureAlone_eq hp hx]
    rcases hcall with ⟨_, _, _, rfl⟩ | ⟨_, rfl⟩ <;> rfl
  rw [effect, show Oracle.declared.callHasEffects p e = _ from himpure]
  cases p.impureHead x <;> rfl

/-! ### Every node has an effect -/

/-- The value that a node writes is in the bodies. -/
theorem value_mem (hlaid : g.LaidOut p body) {ss : List StmtId} (hl : StmtSpans p ss ls le)
    (hbody : body ∈ ls) (hn : n ∈ g.order) {node : Node} (hnode : g.nodes.get? n = some node)
    (hkind : node.kind = .write v y) (hp : p.InRange) : y ∈ le ∧ v.index < p.vars.size := by
  obtain ⟨s, hs, st, m, around, os, hst, hos, _, _, hop⟩ :=
    hlaid.exists_operation hl hbody hn hnode (by rw [hkind]; rfl)
  rw [hkind] at hop
  obtain ⟨st', inner, own, below, hst', how, _, _, hsub⟩ := hl.exists_sublist hs
  rw [hst] at hst'
  cases hst'
  have hown := (List.sublist_append_left own below).trans hsub
  rcases hop with ⟨e, _, ho⟩ | ⟨u, z, rfl, hkind⟩
  · obtain ⟨l, hem⟩ := Emits.exists_of_spells hos
    obtain ⟨hel, x, ins, own', hx, hemits, ho⟩ := hem.exists_of_mem ho
    have he : e ∈ own := (hem.perm how).mem_iff.2 (List.mem_append_left _ hel)
    obtain ⟨_, ⟨_, hread, _⟩ | ⟨u, t, z, objects, hwrite, rfl, hparts, _⟩ | ⟨_, hboth, _⟩ | ⟨hcall, _⟩⟩ :=
      Program.own_cases hemits ho
    · cases hread
    · cases hwrite
      exact ⟨hown.subset (how.mem_of_mem_operands he hx (by simp [Expr.operands])),
        hp.targetParts_lt hparts⟩
    · cases hboth
    · cases hcall
  · cases hkind
    exact ⟨hown.subset (how.mem_of_mem_roots (List.mem_singleton_self _)), hp.declared s v _ hst⟩

/-- A node that makes a call stands for a call in the bodies. -/
theorem call_mem (hlaid : g.LaidOut p body) {ss : List StmtId} (hl : StmtSpans p ss ls le)
    (hbody : body ∈ ls) (hn : n ∈ g.order) {node : Node} {e : ExprId}
    (hnode : g.nodes.get? n = some node) (hkind : node.kind = .call e) :
    e ∈ le ∧ ∃ x, p.exprs.get? e = some x ∧
      ((∃ method receiver args, x = .call method receiver args) ∨ ∃ c, x = .newObject c) := by
  obtain ⟨s, hs, st, m, around, os, hst, hos, _, _, ⟨e', _, ho⟩ | ⟨_, _, _, hwrite⟩⟩ :=
    hlaid.exists_operation hl hbody hn hnode (by rw [hkind]; rfl)
  · rw [hkind] at ho
    obtain ⟨l, hem⟩ := Emits.exists_of_spells hos
    obtain ⟨hel, x, ins, own, hx, hemits, ho⟩ := hem.exists_of_mem ho
    obtain ⟨_, ⟨_, hread, _⟩ | ⟨_, _, _, _, hwrite, _⟩ | ⟨_, hboth, _⟩ | ⟨hcall, hx'⟩⟩ :=
      Program.own_cases hemits ho
    · cases hread
    · cases hwrite
    · cases hboth
    · obtain rfl : e = e' := NodeKind.call.inj hcall
      obtain ⟨st', inner, own, below, hst', how, _, _, hsub⟩ := hl.exists_sublist hs
      rw [hst] at hst'
      cases hst'
      exact ⟨hsub.subset (List.mem_append_left _ ((hem.perm how).mem_iff.2
        (List.mem_append_left _ hel))), x, hx, hx'⟩
  · cases hkind.symm.trans hwrite

section LaidOut

variable (hp : p.InRange) (hl : p.Lists ls le) (hbody : body ∈ ls) (hg : g.Linked)
  (hlaid : g.LaidOut p body)
include hp hl hbody hlaid

/-- The effect of a node that writes a variable. -/
theorem hasEffect_write {node : Node} (hn : n ∈ g.order) (hnode : g.nodes.get? n = some node)
    (hkind : node.kind = .write v y) : ∃ l tracked value, Spans p [y] l ∧ l.Sublist le ∧
      p.isOfMethod v = .ok tracked ∧ Remembers p v y l value ∧
      effect .declared p node.kind = .ok (if tracked then .put v value else .spare v) := by
  obtain ⟨hy, hv⟩ := value_mem hlaid hl.spans hbody hn hnode hkind hp
  obtain ⟨l, hspans, hsub⟩ := hl.spans.exists_spans hy
  obtain ⟨tracked, value, ht, hvalue, heffect⟩ := effect_write hp hv hspans
  exact ⟨l, tracked, value, hspans, hsub, ht, hvalue, hkind ▸ heffect⟩

include hg in
/-- Every node has an effect. -/
theorem exists_hasEffect (hn : n ∈ g.order) : ∃ f, HasEffect .declared p g n f := by
  obtain ⟨node, hnode⟩ := Arena.exists_get?_of_lt (hg.allocated n hn)
  cases hkind : node.kind with
  | write v y =>
    obtain ⟨_, _, _, _, _, _, _, heffect⟩ := hasEffect_write hp hl hbody hlaid hn hnode hkind
    exact ⟨_, node, hnode, heffect⟩
  | call e =>
    obtain ⟨_, x, hx, hcall⟩ := call_mem hlaid hl.spans hbody hn hnode hkind
    exact ⟨_, node, hnode, hkind ▸ effect_call hp hx hcall⟩
  | _ => exact ⟨_, node, hnode, by rw [hkind]; rfl⟩

/-- A node that puts a value of a variable writes the variable, and the variable is one of the
    method. -/
theorem HasEffect.of_put {value : Option ExprId} (hn : n ∈ g.order)
    (h : HasEffect .declared p g n (.put v value)) :
    p.isOfMethod v = .ok true ∧ ∃ node y l, g.nodes.get? n = some node ∧ node.kind = .write v y ∧
      Spans p [y] l ∧ l.Sublist le ∧ Remembers p v y l value := by
  obtain ⟨node, hnode, heffect⟩ := h
  cases hkind : node.kind with
  | write u y =>
    obtain ⟨l, tracked, value', hspans, hsub, ht, hvalue, heffect'⟩ :=
      hasEffect_write hp hl hbody hlaid hn hnode hkind
    rw [heffect] at heffect'
    cases tracked with
    | true =>
      cases heffect'
      exact ⟨ht, node, y, l, hnode, hkind, hspans, hsub, hvalue⟩
    | false => cases heffect'
  | call e =>
    obtain ⟨_, x, hx, hcall⟩ := call_mem hlaid hl.spans hbody hn hnode hkind
    rw [hkind, effect_call hp hx hcall] at heffect
    split at heffect <;> cases heffect
  | _ =>
    rw [hkind] at heffect
    cases heffect

end LaidOut

/-- The nodes for the operations of an inert value change nothing. -/
theorem keep_of_inert (hp : p.InRange) {parent : Option NodeId} {l : List ExprId}
    {os : List Operation} {ins outs ends : List OpenEdge} {ns : List NodeId}
    (hem : Emits p [y] l os) (hinert : p.Inert l) (hrow : Spelled g parent os ins ns outs ends)
    (hn : n ∈ ns) : HasEffect .declared p g n .keep := by
  obtain ⟨kind, e, hnode, hop | ⟨call, rfl⟩ | rfl⟩ := hrow.exists_of_mem hn
  · refine ⟨_, hnode, ?_⟩
    obtain ⟨hel, x, ins, own, hx, hemits, ho⟩ := hem.exists_of_mem hop
    have himpure := (hinert e hel x hx).1
    obtain ⟨_, ⟨_, hread, _⟩ | ⟨_, _, _, _, _, rfl, _⟩ | ⟨_, _, htrue⟩ | ⟨hkind, hcall⟩⟩ :=
      Program.own_cases hemits ho
    · rw [show kind = _ from hread]
      rfl
    · cases himpure
    · rw [htrue] at himpure
      cases himpure
    · rw [show kind = _ from hkind, effect_call hp hx hcall, himpure]
      rfl
  · exact ⟨_, hnode, rfl⟩
  · exact ⟨_, hnode, rfl⟩

end Inlining

/-! ### Effects after a rewrite -/

namespace Inlined

open Inlining

variable {p q : Program} {g g' : Graph} {n m : NodeId} {ls : List StmtId} {le : List ExprId}
  {body : StmtId} {v : VarId} {y : ExprId} {f : Effect} {parent : Option NodeId} {u : VarId}
  {r c a : ExprId} {la lc : List ExprId} {oc : List Operation}
  (h : Inlined p q g g' n parent u r c a ls le la lc oc)
include h

theorem isOfMethod_eq : q.isOfMethod v = p.isOfMethod v := by
  rw [Program.isOfMethod, Program.isOfMethod, h.edited.vars]

/-- What is remembered of a value stays so unless the value is inert and the read was in it. -/
theorem remembers {l : List ExprId} (hy : Spans p [y] l) (hl : ∀ e ∈ l, e ∈ le)
    (hnot : ¬(p.Inert l ∧ r ∈ l)) {value : Option ExprId}
    (hvalue : Remembers q v (redirect r c y) (l.flatMap (inPlaceOf r lc)) value) :
    Remembers p v y l value := by
  rw [Remembers, h.edited.inert_iff h.inert hl] at hvalue
  by_cases hr : r ∈ l
  · -- The value is not inert, before and after.
    have hni : ¬p.Inert l := fun hi => hnot ⟨hi, hr⟩
    rcases hvalue with ⟨_, hi, _⟩ | ⟨rfl, _⟩
    · exact absurd hi hni
    · exact .inr ⟨rfl, fun h => hni h.1⟩
  · have hyr : redirect r c y = y :=
      if_neg (ne_of_mem_of_not_mem (hy.mem_of_mem_roots (List.mem_singleton_self y)) hr)
    rwa [flatMap_inPlaceOf_of_not_mem hr, h.edited.avoids_iff hl, hyr] at hvalue

/-- A node keeps its effect, unless it writes an inert value in which the variable was read. -/
theorem hasEffect (hp : p.InRange) (hl : p.Lists ls le) (hbody : body ∈ ls) (hg : g.Linked)
    (hlaid : g.LaidOut p body) (hm : m ∈ g.order) (hmn : m ≠ n)
    (hf : HasEffect .declared p g m f) : HasEffect .declared q g' m f ∨
      ∃ node v y l, g.nodes.get? m = some node ∧ node.kind = .write v y ∧
        p.isOfMethod v = .ok true ∧ Spans p [y] l ∧ p.Inert l ∧ r ∈ l := by
  obtain ⟨node, hnode, heffect⟩ := hf
  have hnode' : g'.nodes.get? m = some (node.retarget r c) := by
    rw [(h.spliced.rewritten hg).node m hm hmn, hnode]
    rfl
  suffices effect .declared q (node.kind.retarget r c) = effect .declared p node.kind ∨
      ∃ v y l, node.kind = .write v y ∧ p.isOfMethod v = .ok true ∧ Spans p [y] l ∧
        p.Inert l ∧ r ∈ l by
    rcases this with heq | ⟨v, y, l, hrest⟩
    · exact .inl ⟨_, hnode', heq.trans heffect⟩
    · exact .inr ⟨node, v, y, l, hnode, hrest⟩
  cases hkind : node.kind with
  | write v y =>
    obtain ⟨l, tracked, value, hspans, hsub, ht, hvalue, heffect⟩ :=
      hasEffect_write hp hl hbody hlaid hm hnode hkind
    have hv := (value_mem hlaid hl.spans hbody hm hnode hkind hp).2
    obtain ⟨tracked', value', ht', hvalue', heffect'⟩ := effect_write (h.edited.inRange hp)
      (h.edited.vars ▸ hv) (h.edited.spans hspans fun e he => hsub.subset he)
    rw [h.isOfMethod_eq, ht] at ht'
    cases ht'
    rw [hkind] at heffect
    by_cases hin : p.Inert l ∧ r ∈ l
    · cases tracked with
      | true => exact .inr ⟨v, y, l, rfl, ht, hspans, hin⟩
      | false => exact .inl (heffect'.trans heffect.symm)
    · have := h.remembers hspans (fun e he => hsub.subset he) hin hvalue'
      rw [hvalue.unique this] at heffect
      exact .inl (heffect'.trans heffect.symm)
  | call e =>
    -- What is read is no call, and calls keep their methods.
    obtain ⟨he, x, hx, hcall⟩ := call_mem hlaid hl.spans hbody hm hnode hkind
    have her : e ≠ r := by
      rintro rfl
      rw [h.var] at hx
      cases hx
      rcases hcall with ⟨_, _, _, hcall⟩ | ⟨_, hcall⟩ <;> cases hcall
    have hx' : q.exprs.get? e = some (x.redirect r c) := by
      rw [h.edited.expr e he, hx]
      rfl
    have hcall' : (∃ method receiver args, x.redirect r c = .call method receiver args) ∨
        ∃ c', x.redirect r c = .newObject c' := by
      rcases hcall with ⟨method, receiver, args, rfl⟩ | ⟨c', rfl⟩
      · cases receiver <;> exact .inl ⟨_, _, _, rfl⟩
      · exact .inr ⟨c', rfl⟩
    left
    rw [NodeKind.retarget, if_neg her, effect_call hp hx hcall,
      effect_call (h.edited.inRange hp) hx' hcall', Expr.redirect, Expr.impureHead_withOperands,
      h.edited.impureHead_eq]
  | _ => exact .inl rfl

/-- The node that writes an inert value stands behind the read in it, with a row of operations in
    between that change nothing. -/
theorem exists_row (hp : p.InRange) (hl : p.Lists ls le) (hbody : body ∈ ls)
    (hlaid : g.LaidOut p body) (hm : m ∈ g.order) {node : Node}
    (hnode : g.nodes.get? m = some node) (hkind : node.kind = .write v y) {l : List ExprId}
    (hspans : Spans p [y] l) (hinert : p.Inert l) (hr : r ∈ l) :
    ∃ before row after parent' os os' ends, g.order = before ++ n :: (row ++ m :: after) ∧
      (∀ k ∈ row, HasEffect .declared p g k .keep) ∧ Emits p [y] l (os ++ ⟨.read u, r⟩ :: os') ∧
      Spelled g parent' os' [(n, none)] row (g.arrivals m) ends := by
  obtain ⟨before, row, after, parent', ins, ends, l', os, horder, hem, hrow⟩ :=
    hlaid.exists_value_row hl hbody hm hnode hkind
  obtain ⟨os', hem'⟩ := hspans.exists_emits_of_inert hinert
  obtain ⟨rfl, rfl⟩ := hem.unique hem'
  obtain ⟨os₁, os₂, rfl⟩ := List.append_of_mem (hem.mem_of_var hr h.var)
  have hkeep : ∀ k ∈ row, HasEffect .declared p g k .keep := fun k hk =>
    keep_of_inert hp hem hinert hrow hk
  obtain ⟨ns₁, _, _, _, _, _, hread, rfl, _⟩ := hrow.of_append
  obtain ⟨ns₂, k, ns₃, mid, _, hk, hrest, rfl⟩ := hread.of_cons fun _ => NodeKind.noConfusion
  have hkorder : k ∈ g.order := by
    rw [horder]
    simp
  obtain rfl : k = n := h.alone.unique k hkorder u _ hk.node
  refine ⟨before ++ (ns₁ ++ ns₂), ns₃, after, parent', os₁, os₂, _, ?_, fun m hm => hkeep m ?_, hem,
    hrest⟩
  · rw [horder]
    simp
  · simp [hm]

end Inlined

end Dataflow
