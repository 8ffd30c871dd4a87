import Dataflow.Proofs.Exhaustion
import Dataflow.Proofs.Stirring

/-!
# Settled facts that agree

Two graphs that follow the same body, each with settled facts. They may differ in silent nodes, and
in how their facts came about: those of one graph from older facts of another program, those of the
other from scratch. If the loops of the body stir, both know the same values at the same
places (`alike_laid`). So a body without reads of known values has none in any graph of it
(`Exhausted.readsUnknown`).

* `Agree`: the same values are known on edges of one graph and on edges of the other;
* `Alike`: two stretches of nodes, between edges that agree;
* `Skips`: silent nodes, which only one of the graphs has.
-/

namespace Dataflow.Inlining

variable {p : Program} {body : StmtId} {φ ψ χ : Flow} {n m : NodeId} {u : VarId} {x : ExprId}

/-! ### Values known at nodes and after them -/

namespace Flow

/-- The value that a variable is known to have where a node is entered. -/
def valueAt (φ : Flow) (n : NodeId) (u : VarId) : Option ExprId :=
  (φ.facts.joinIncoming φ.graph n).value u

/-- The value that a variable is known to have after a node. -/
def valueAfter (φ : Flow) (n : NodeId) (u : VarId) : Option ExprId :=
  (leaving φ.graph φ.facts φ.effects n).value u

end Flow

/-- The value that a node gives to a variable, whatever it was before. -/
def Effect.given : Effect → VarId → Option ExprId
  | put v value, u => if v = u then value else none
  | _, _ => none

/-- Variables are spared by writes to what is no variable of the method. -/
theorem isOfMethod_of_spare {kind : NodeKind} {v : VarId}
    (h : effect .declared p kind = .ok (.spare v)) : p.isOfMethod v = .ok false := by
  cases kind with
  | write w y =>
    obtain ⟨tracked, htracked, h⟩ := Run.bind_eq_ok.1 h
    cases tracked with
    | true =>
      obtain ⟨inlinable, _, h⟩ := Run.bind_eq_ok.1 h
      cases inlinable <;> cases h
    | false =>
      cases h
      exact htracked
  | call e =>
    obtain ⟨impure, _, h⟩ := Run.bind_eq_ok.1 h
    cases impure <;> cases h
  | _ => cases h

namespace Flow.Follows

variable (hφ : φ.Follows p body)
include hφ

/-- A value is known where a node is entered if there are edges into it, and it is known on all of
    them. -/
theorem valueAt_eq_some_iff : φ.valueAt n u = some x ↔
    φ.graph.arrivals n ≠ [] ∧ ∀ a ∈ φ.graph.arrivals n, φ.valueAfter a.1 u = some x := by
  have hwired := hφ.linked.toWired
  have hjoined : φ.valueAt n u = some x ↔ _ :=
    value_joined hφ.settled.initial fun _ => hφ.settled.isSome_of_mem_inEdges hwired
  constructor
  · intro hx
    exact ⟨mt hwired.arrivals_eq_nil_iff.1 (hjoined.1 hx).1,
      fun a ha => hφ.settled.value_leaving hwired hx ha⟩
  · rintro ⟨hne, hall⟩
    refine hjoined.2 ⟨mt hwired.arrivals_eq_nil_iff.2 hne, fun e he => ?_⟩
    obtain ⟨k, hk⟩ := (hwired.mem_inEdges n e).1 he
    obtain ⟨label, ha⟩ := hwired.mem_arrivals_iff.2 ⟨e, hk⟩
    rw [valueOn, hφ.settled.get_of_joins hwired hk]
    exact hall _ ha

theorem effect_of_sits {kind : NodeKind} {origin : Origin} {parent : Option NodeId}
    {ins : List OpenEdge} (hn : Sits φ.graph n kind origin parent ins) (hmem : n ∈ φ.graph.order) :
    effect .declared p kind = .ok (φ.effects n) := by
  obtain ⟨node, hnode, heffect⟩ := hφ.effects n hmem
  rw [hn.node] at hnode
  cases hnode
  exact heffect

/-- Only variables of the method are known. -/
theorem isOfMethod (hn : n ∈ φ.graph.order) (hx : φ.valueAt n u = some x) :
    p.isOfMethod u = .ok true := by
  obtain ⟨ls, le, hl, hbody⟩ := hφ.lists
  obtain ⟨k, hk, hput, _⟩ := hφ.settled.exists_put hφ.linked.toWired
    (hφ.laidOut.ordered hφ.linked.toWired) hn hx hx
  exact ((hput ▸ hφ.effects k hk).of_put hφ.tree.inRange hl hbody hφ.laidOut hk).1

/-- A node keeps all values, or leaves none but one that it gives. -/
theorem valueAfter_eq (hn : n ∈ φ.graph.order) : φ.valueAfter n u =
    if φ.effects n = .keep then φ.valueAt n u else (φ.effects n).given u := by
  rw [Flow.valueAfter, leaving, Effect.value_apply]
  change (φ.effects n).after u (φ.valueAt n u) = _
  cases hE : φ.effects n with
  | keep => rfl
  | forget => rfl
  | put v value => rfl
  | spare v =>
    -- What is spared is not known, as it is no variable of the method.
    rw [Effect.after]
    split
    · next hvu =>
      subst hvu
      refine Option.eq_none_iff_forall_ne_some.2 fun x hx => ?_
      obtain ⟨node, _, heffect⟩ := hφ.effects n hn
      rw [hE] at heffect
      cases (isOfMethod_of_spare heffect).symm.trans (hφ.isOfMethod hn hx)
    · rfl

end Flow.Follows

/-! ### Edges that agree -/

/-- The same values are known on all edges of one list and of another one, which belongs to another
    graph. -/
structure Agree (φ ψ : Flow) (es es' : List OpenEdge) : Prop where
  nil_iff : es = [] ↔ es' = []
  value_iff : ∀ u x, (∀ a ∈ es, φ.valueAfter a.1 u = some x) ↔
    ∀ a ∈ es', ψ.valueAfter a.1 u = some x

namespace Agree

variable {es es' es'' ds ds' : List OpenEdge} {l l' : Option Label}

theorem refl (φ : Flow) (es : List OpenEdge) : Agree φ φ es es := ⟨Iff.rfl, fun _ _ => Iff.rfl⟩

theorem symm (h : Agree φ ψ es es') : Agree ψ φ es' es :=
  ⟨h.nil_iff.symm, fun u x => (h.value_iff u x).symm⟩

theorem trans (h : Agree φ ψ es es') (h' : Agree ψ χ es' es'') : Agree φ χ es es'' :=
  ⟨h.nil_iff.trans h'.nil_iff, fun u x => (h.value_iff u x).trans (h'.value_iff u x)⟩

theorem nil : Agree φ ψ [] [] := ⟨Iff.rfl, fun u x => by simp⟩

theorem append (h : Agree φ ψ es es') (h' : Agree φ ψ ds ds') :
    Agree φ ψ (es ++ ds) (es' ++ ds') where
  nil_iff := by rw [List.append_eq_nil_iff, List.append_eq_nil_iff, h.nil_iff, h'.nil_iff]
  value_iff u x := by
    rw [List.forall_mem_append, List.forall_mem_append, h.value_iff, h'.value_iff]

theorem singleton_iff : Agree φ ψ [(n, l)] [(m, l')] ↔ ∀ u, φ.valueAfter n u = ψ.valueAfter m u := by
  constructor
  · intro h u
    ext x
    simpa using h.value_iff u x
  · intro h
    exact ⟨by simp, fun u x => by simp [h u]⟩

/-- What leaves a node is the same on all edges. -/
theorem relabel (h : Agree φ ψ [(n, l)] [(m, l')]) (k k' : Option Label) :
    Agree φ ψ [(n, k)] [(m, k')] :=
  singleton_iff.2 (singleton_iff.1 h)

end Agree

section Nodes

variable {kind : NodeKind} {origin : Origin} {parent parent' : Option NodeId}
  {ins ins' : List OpenEdge} {l l' : Option Label}

/-- Where edges that agree enter nodes, the same values are known. -/
theorem Agree.valueAt_eq (h : Agree φ ψ (φ.graph.arrivals n) (ψ.graph.arrivals m))
    (hφ : φ.Follows p body) (hψ : ψ.Follows p body) : φ.valueAt n u = ψ.valueAt m u := by
  ext x
  rw [hφ.valueAt_eq_some_iff, hψ.valueAt_eq_some_iff, h.value_iff, Ne, h.nil_iff]

/-- Behind nodes that do the same, edges agree if those into the nodes do, or if the nodes change
    what is known. -/
theorem Agree.of_sits (hφ : φ.Follows p body) (hψ : ψ.Follows p body)
    (hn : Sits φ.graph n kind origin parent ins) (hm : Sits ψ.graph m kind origin parent' ins')
    (hnmem : n ∈ φ.graph.order) (hmmem : m ∈ ψ.graph.order)
    (h : Agree φ ψ ins ins' ∨ effect .declared p kind ≠ .ok .keep) :
    Agree φ ψ [(n, l)] [(m, l')] := by
  have hn' := hφ.effect_of_sits hn hnmem
  have heq : φ.effects n = ψ.effects m :=
    Except.ok.inj (hn'.symm.trans (hψ.effect_of_sits hm hmmem))
  refine singleton_iff.2 fun u => ?_
  rw [hφ.valueAfter_eq hnmem, hψ.valueAfter_eq hmmem, ← heq]
  rcases h with h | h
  · rw [← hn.arrivals, ← hm.arrivals] at h
    rw [h.valueAt_eq hφ hψ]
  · have hne : φ.effects n ≠ .keep := fun hkeep => h (hkeep ▸ hn')
    rw [if_neg hne, if_neg hne]

/-- A node that changes nothing agrees with the edges into it. -/
theorem Agree.of_keep (hφ : φ.Follows p body) (hn : Sits φ.graph n kind origin parent ins)
    (hmem : n ∈ φ.graph.order) (hkeep : effect .declared p kind = .ok .keep) (hne : ins ≠ []) :
    Agree φ φ ins [(n, l)] where
  nil_iff := by simp [hne]
  value_iff u x := by
    have heq : φ.effects n = .keep := Except.ok.inj ((hφ.effect_of_sits hn hmem).symm.trans hkeep)
    rw [List.forall_mem_singleton, hφ.valueAfter_eq hmem, if_pos heq,
      hφ.valueAt_eq_some_iff, hn.arrivals]
    simp [hne]

end Nodes

/-! ### Stretches between edges that agree -/

/-- Two stretches of nodes: behind them edges agree if those into them do, and there is no read of
    a known value in the second one if there is none in the first one. -/
structure Alike (φ ψ : Flow) (ins ins' : List OpenEdge) (ns ns' : List NodeId)
    (outs outs' : List OpenEdge) : Prop where
  agree : Agree φ ψ ins ins' → Agree φ ψ outs outs'
  reads : Agree φ ψ ins ins' → (∀ n ∈ ns, ReadsUnknown φ.graph φ.facts n) →
    ∀ n ∈ ns', ReadsUnknown ψ.graph ψ.facts n

/-- Nodes none of which reads a variable, with agreement across them. -/
structure Skips (φ : Flow) (ins : List OpenEdge) (ns : List NodeId) (outs : List OpenEdge) : Prop
    where
  agree : Agree φ φ ins outs
  silent : ∀ n ∈ ns, ∀ v origin parent, φ.graph.nodes.get? n ≠ some ⟨.read v, origin, parent⟩

namespace Alike

variable {ins ins' mid mid' outs outs' es es' : List OpenEdge} {ns ns' ms ms' : List NodeId}

theorem append (h : Alike φ ψ ins ins' ns ns' mid mid') (h' : Alike φ ψ mid mid' ms ms' outs outs') :
    Alike φ ψ ins ins' (ns ++ ms) (ns' ++ ms') outs outs' where
  agree hins := h'.agree (h.agree hins)
  reads hins hns := by
    rw [List.forall_mem_append] at hns ⊢
    exact ⟨h.reads hins hns.1, h'.reads (h.agree hins) hns.2⟩

theorem relabel {l l' : Option Label} (h : Alike φ ψ ins ins' ns ns' [(n, l)] [(m, l')])
    (k k' : Option Label) : Alike φ ψ ins ins' ns ns' [(n, k)] [(m, k')] where
  agree hins := (h.agree hins).relabel k k'
  reads := h.reads

/-- More edges that agree. -/
theorem widen (h : Alike φ ψ ins ins' ns ns' outs outs') (hes : Agree φ ψ es es') :
    Alike φ ψ ins ins' ns ns' (outs ++ es) (outs' ++ es') where
  agree hins := (h.agree hins).append hes
  reads := h.reads

theorem of_skips (h : Skips φ ins ns mid) (h' : Skips ψ ins' ns' mid') :
    Alike φ ψ ins ins' ns ns' mid mid' where
  agree hins := (h.agree.symm.trans hins).trans h'.agree
  reads _ _ n hn v _ parent hnode := absurd hnode (h'.silent n hn v _ parent)

/-- Two nodes that do the same. -/
theorem of_sits {kind : NodeKind} {origin : Origin} {parent parent' : Option NodeId}
    {l l' : Option Label} (hφ : φ.Follows p body) (hψ : ψ.Follows p body)
    (hn : Sits φ.graph n kind origin parent ins) (hm : Sits ψ.graph m kind origin parent' ins')
    (hnmem : n ∈ φ.graph.order) (hmmem : m ∈ ψ.graph.order) :
    Alike φ ψ ins ins' [n] [m] [(n, l)] [(m, l')] where
  agree hins := .of_sits hφ hψ hn hm hnmem hmmem (.inl hins)
  reads hins hreads := by
    rw [List.forall_mem_singleton] at hreads ⊢
    intro v r parent'' hnode
    rw [hm.node] at hnode
    cases hnode
    rw [← hn.arrivals, ← hm.arrivals] at hins
    exact (hins.valueAt_eq hφ hψ).symm.trans (hreads v r parent hn.node)

end Alike

/-! ### Rows -/

section Rows

variable {parent parent' : Option NodeId} {os : List Operation} {o : Operation}
  {ins ins' outs outs' ends ends' : List OpenEdge} {ns ns' : List NodeId}

namespace Skips

theorem refl (φ : Flow) (ins : List OpenEdge) : Skips φ ins [] ins :=
  ⟨.refl φ ins, fun n hn => by cases hn⟩

/-- One more node that changes nothing and does not read. -/
theorem cons {kind : NodeKind} {origin : Origin} {l : Option Label} (hφ : φ.Follows p body)
    (hn : Sits φ.graph n kind origin parent ins) (hmem : n ∈ φ.graph.order) (hne : ins ≠ [])
    (hkeep : effect .declared p kind = .ok .keep) (hread : ∀ v, kind ≠ .read v)
    (h : Skips φ [(n, l)] ns outs) : Skips φ ins (n :: ns) outs where
  agree := (Agree.of_keep hφ hn hmem hkeep hne).trans h.agree
  silent := by
    rw [List.forall_mem_cons]
    refine ⟨fun v origin parent hnode => ?_, h.silent⟩
    rw [hn.node] at hnode
    cases hnode
    exact hread v rfl

/-- A row without operations. -/
theorem of_nil (hφ : φ.Follows p body) (hrow : Spelled φ.graph parent [] ins ns outs ends)
    (hns : ∀ n ∈ ns, n ∈ φ.graph.order) (hne : ins ≠ []) : Skips φ ins ns outs := by
  generalize hos : ([] : List Operation) = os at hrow
  induction hrow with
  | nil => exact .refl φ _
  | op | call => cases hos
  | nop hn _ ih =>
    rw [List.forall_mem_cons] at hns
    exact .cons hφ hn hns.1 hne rfl (fun v => NodeKind.noConfusion)
      (ih hns.2 (List.cons_ne_nil _ _) hos)

/-- A row up to its first operation. -/
theorem exists_of_cons (hφ : φ.Follows p body)
    (hrow : Spelled φ.graph parent (o :: os) ins ns outs ends)
    (hns : ∀ n ∈ ns, n ∈ φ.graph.order) (hne : ins ≠ []) :
    ∃ skipped n rest mid ends', ns = skipped ++ ([n] ++ rest) ∧ Skips φ ins skipped mid ∧
      Sits φ.graph n o.kind (.expr o.expr) parent mid ∧
      Spelled φ.graph parent os [(n, none)] rest outs ends' := by
  generalize hos : o :: os = all at hrow
  induction hrow with
  | nil => cases hos
  | op hn hrest =>
    cases hos
    exact ⟨[], _, _, _, _, rfl, .refl φ _, hn, hrest⟩
  | @call _ e _ m n _ _ _ _ hkind hm hn hrest =>
    -- The way parts before the call.
    cases hos
    rw [List.forall_mem_cons] at hns
    rw [← hkind] at hn
    exact ⟨[m], n, _, _, _, rfl, .cons hφ hm hns.1 hne rfl (fun v => NodeKind.noConfusion)
      (.refl φ _), hn, hrest⟩
  | @nop e _ n _ _ _ _ hn _ ih =>
    rw [List.forall_mem_cons] at hns
    obtain ⟨skipped, m, rest, mid, ends', rfl, hskips, hm, hrest⟩ :=
      ih hns.2 (List.cons_ne_nil _ _) hos
    exact ⟨n :: skipped, m, rest, mid, ends', rfl,
      .cons hφ hn hns.1 hne rfl (fun v => NodeKind.noConfusion) hskips, hm, hrest⟩

end Skips

variable (hφ : φ.Follows p body) (hψ : ψ.Follows p body)
include hφ hψ

/-- Two rows of the same operations. Behind them edges agree in any case if one of the operations
    changes what is known. -/
theorem alike_row (hrow : Spelled φ.graph parent os ins ns outs ends)
    (hrow' : Spelled ψ.graph parent' os ins' ns' outs' ends') (hns : ∀ n ∈ ns, n ∈ φ.graph.order)
    (hns' : ∀ n ∈ ns', n ∈ ψ.graph.order) (hne : ins ≠ []) (hne' : ins' ≠ []) :
    Alike φ ψ ins ins' ns ns' outs outs' ∧
      ((∃ o ∈ os, effect .declared p o.kind ≠ .ok .keep) → Agree φ ψ outs outs') := by
  induction os generalizing ins ins' ns ns' ends ends' with
  | nil =>
    refine ⟨.of_skips (.of_nil hφ hrow hns hne) (.of_nil hψ hrow' hns' hne'), ?_⟩
    rintro ⟨o, ho, _⟩
    cases ho
  | cons o os ih =>
    obtain ⟨skipped, n, rest, mid, _, rfl, hskips, hn, hrest⟩ :=
      Skips.exists_of_cons hφ hrow hns hne
    obtain ⟨skipped', n', rest', mid', _, rfl, hskips', hn', hrest'⟩ :=
      Skips.exists_of_cons hψ hrow' hns' hne'
    simp only [List.forall_mem_append, List.forall_mem_singleton] at hns hns'
    obtain ⟨hbehind, hstirred⟩ := ih hrest hrest' hns.2.2 hns'.2.2 (List.cons_ne_nil _ _)
      (List.cons_ne_nil _ _)
    refine ⟨(Alike.of_skips hskips hskips').append
      ((Alike.of_sits hφ hψ hn hn' hns.2.1 hns'.2.1).append hbehind), ?_⟩
    rintro ⟨o', ho', hne⟩
    -- What the row was entered with plays no part behind the operation.
    rcases List.mem_cons.1 ho' with rfl | ho'
    · exact hbehind.agree (.of_sits hφ hψ hn hn' hns.2.1 hns'.2.1 (.inr hne))
    · exact hstirred ⟨o', ho', hne⟩

end Rows

/-! ### Statements -/

/-- A statement changes what is known by one of its operations, or by what it does last. -/
def Changes (p : Program) (st : Stmt) : Prop :=
  ∀ os, p.Spells st.exprs os → (∃ o ∈ os, effect .declared p o.kind ≠ .ok .keep) ∨
    ∃ kind, st.lastKind = some kind ∧ effect .declared p kind ≠ .ok .keep

theorem changes_declare (p : Program) (v : VarId) (e : ExprId) :
    Changes p (.declare v (some e)) :=
  fun _ _ => .inr ⟨_, rfl, effect_write_ne_keep p v e⟩

section Statements

variable {parent parent' : Option NodeId} {s : StmtId} {st : Stmt} {part : Part}
  {back back' ins ins' outs outs' ends ends' : List OpenEdge} {ns ns' : List NodeId}
  {ls : List StmtId} {le : List ExprId}

theorem changes_of_impure (hp : p.InRange) (hl : p.Lists ls le) (hs : s ∈ ls)
    (hst : p.stmts.get? s = some st) {e : ExprId} (he : e ∈ st.exprs)
    (himpure : p.isImpure e = .ok true) : Changes p st := by
  intro os hos
  obtain ⟨st', inner, own, below, hst', how, _, _, _⟩ := hl.spans.exists_sublist hs
  cases hst.symm.trans hst'
  exact .inl (exists_stirring hp hos how he himpure)

variable (hφ : φ.Follows p body) (hψ : ψ.Follows p body)
include hφ hψ

/-- A statement up to what it does last. Behind it edges agree in any case if it changes what is
    known. -/
theorem alike_head (hhead : Headed φ.graph p parent s st back ins ns outs ends)
    (hhead' : Headed ψ.graph p parent' s st back' ins' ns' outs' ends')
    (hns : ∀ n ∈ ns, n ∈ φ.graph.order) (hns' : ∀ n ∈ ns', n ∈ ψ.graph.order) :
    (Agree φ ψ back back' → Alike φ ψ ins ins' ns ns' outs outs') ∧
      (Changes p st → Agree φ ψ outs outs') := by
  obtain ⟨n, os, row, mid, hn, hos, hrow, hlast⟩ := hhead.exists_spelled
  obtain ⟨n', os', row', mid', hn', hos', hrow', hlast'⟩ := hhead'.exists_spelled
  obtain rfl := hos.unique hos'
  have hne : ∀ {n : NodeId} {es : List OpenEdge}, ((n, none) : OpenEdge) :: es ≠ [] :=
    List.cons_ne_nil _ _
  -- The statement says whether there is a last node, so there is one in both graphs or in none.
  rcases hlast with ⟨hnone, rfl, rfl⟩ | ⟨kind, k, hkind, rfl, hk, rfl⟩
  · rcases hlast' with ⟨_, rfl, rfl⟩ | ⟨_, _, hkind, _⟩
    · rw [List.forall_mem_cons] at hns hns'
      obtain ⟨halike, hagree⟩ := alike_row hφ hψ hrow hrow' hns.2 hns'.2 hne hne
      refine ⟨fun hback => ?_, fun hchanges => ?_⟩
      · exact ((Alike.of_sits hφ hψ hn hn' hns.1 hns'.1).widen hback).append halike
      · exact hagree ((hchanges os' hos).resolve_right fun ⟨_, hkind, _⟩ => by
          cases hnone.symm.trans hkind)
    · cases hnone.symm.trans hkind
  · rcases hlast' with ⟨hnone, _⟩ | ⟨_, k', hkind', rfl, hk', rfl⟩
    · cases hkind.symm.trans hnone
    · cases hkind.symm.trans hkind'
      rw [List.forall_mem_cons, List.forall_mem_append, List.forall_mem_singleton] at hns hns'
      obtain ⟨halike, hagree⟩ := alike_row hφ hψ hrow hrow' hns.2.1 hns'.2.1 hne hne
      refine ⟨fun hback => ?_, fun hchanges => .of_sits hφ hψ hk hk' hns.2.2 hns'.2.2 ?_⟩
      · exact ((Alike.of_sits hφ hψ hn hn' hns.1 hns'.1).widen hback).append
          (halike.append (.of_sits hφ hψ hk hk' hns.2.2 hns'.2.2))
      · refine (hchanges os' hos).imp hagree fun ⟨_, hkind', hne⟩ => ?_
        cases hkind.symm.trans hkind'
        exact hne

/-- Statements whose loops stir. Behind them edges agree in any case if the statements stir. -/
theorem alike_laid (hl : p.Lists ls le) (hloops : p.LoopsStir)
    (hlaid : Laid φ.graph p parent part ins ns outs ends)
    (hlaid' : Laid ψ.graph p parent' part ins' ns' outs' ends')
    (hns : ∀ n ∈ ns, n ∈ φ.graph.order) (hns' : ∀ n ∈ ns', n ∈ ψ.graph.order)
    (hpart : ∀ s ∈ part.stmts, s ∈ ls) :
    Alike φ ψ ins ins' ns ns' outs outs' ∧ (p.Stirs part → Agree φ ψ outs outs') := by
  have hp := hφ.tree.inRange
  have hinside : ∀ {s st}, s ∈ ls → p.stmts.get? s = some st → ∀ t ∈ st.children, t ∈ ls :=
    fun hs hst _ ht => hl.spans.mem_of_mem_children hs hst ht
  rw [hl.loopsStir_iff] at hloops
  -- Along the layout in the first graph; each case opens the one in the second to match. That edges
  -- agree behind what stirs is carried along for the edges that lead back up in loops.
  induction hlaid generalizing parent' ins' ns' outs' ends' with
  | block hst hn _ ih =>
    have hs := hpart _ (List.mem_singleton_self _)
    obtain ⟨n', rest', rfl, hn', hinner'⟩ := hlaid'.of_block hst
    rw [List.forall_mem_cons] at hns hns'
    obtain ⟨halike, hagree⟩ := ih hinner' hns.2 hns'.2 (hinside hs hst)
    exact ⟨(Alike.of_sits hφ hψ hn hn' hns.1 hns'.1).append halike, fun hstirs =>
      hagree (hstirs.of_block hst)⟩
  | straight hst hstraight hhead =>
    have hs := hpart _ (List.mem_singleton_self _)
    obtain ⟨halike, hagree⟩ :=
      alike_head hφ hψ hhead (hlaid'.of_straight hst hstraight) hns hns'
    refine ⟨halike .nil, fun hstirs => hagree ?_⟩
    rcases hstirs.of_straight hst hstraight with ⟨e, he, himpure⟩ | ⟨v, e, rfl⟩
    · exact changes_of_impure hp hl hs hst he himpure
    · exact changes_declare p v e
  | ret hst hhead =>
    obtain ⟨outs'', ends'', rfl, rfl, hhead'⟩ := hlaid'.of_ret hst
    have halike := (alike_head hφ hψ hhead hhead' hns hns').1 .nil
    exact ⟨⟨fun _ => .nil, halike.reads⟩, fun _ => .nil⟩
  | branch hst hhead _ _ ihthen ihelse =>
    have hs := hpart _ (List.mem_singleton_self _)
    obtain ⟨n', k', row', ts', es', outs₁', outs₂', _, _, _, rfl, rfl, rfl, hhead', hthen', helse'⟩ :=
      hlaid'.of_branch hst
    rw [← List.cons_append] at hns hns' ⊢
    rw [← List.cons_append]
    rw [List.forall_mem_append, List.forall_mem_append] at hns hns'
    obtain ⟨halike, hagree⟩ := alike_head hφ hψ hhead hhead' hns.1 hns'.1
    obtain ⟨hthen, hstirsThen⟩ := ihthen hthen' hns.2.1 hns'.2.1 fun t ht => hinside hs hst t (by
      rw [List.mem_singleton.1 ht]
      exact List.mem_cons_self)
    obtain ⟨helse, hstirsElse⟩ := ihelse helse' hns.2.2 hns'.2.2 fun t ht =>
      hinside hs hst t (List.mem_cons_of_mem _ ht)
    have hthen' := (halike .nil).relabel (some .thenBranch) (some .thenBranch)
    have helse' := (halike .nil).relabel (some .elseBranch) (some .elseBranch)
    refine ⟨⟨fun hins => ?_, fun hins hreads => ?_⟩, fun hstirs => ?_⟩
    · exact (helse.agree (helse'.agree hins)).append (hthen.agree (hthen'.agree hins))
    · simp only [List.forall_mem_append] at hreads ⊢
      exact ⟨(halike .nil).reads hins hreads.1, hthen.reads (hthen'.agree hins) hreads.2.1,
        helse.reads (helse'.agree hins) hreads.2.2⟩
    · rcases hstirs.of_branch hst with himpure | ⟨hstirs, hstirs'⟩
      · have hk := hagree (changes_of_impure hp hl hs hst (List.mem_singleton_self _) himpure)
        exact (helse.agree (hk.relabel _ _)).append (hthen.agree (hk.relabel _ _))
      · exact (hstirsElse hstirs').append (hstirsThen hstirs)
  | @loop s t c parent n k row ts ins back ends ends₁ hst hhead _ ih =>
    have hs := hpart _ (List.mem_singleton_self _)
    obtain ⟨n', k', row', ts', back', _, _, rfl, rfl, rfl, hhead', hbody'⟩ := hlaid'.of_loop hst
    rw [← List.cons_append] at hns hns' ⊢
    rw [← List.cons_append]
    rw [List.forall_mem_append] at hns hns'
    obtain ⟨halike, hagree⟩ := alike_head hφ hψ hhead hhead' hns.1 hns'.1
    obtain ⟨hbody, hstirsBody⟩ := ih hbody' hns.2 hns'.2 (hinside hs hst)
    have hcond := fun himpure =>
      hagree (changes_of_impure hp hl hs hst (List.mem_singleton_self _) himpure)
    -- What leads back agrees, whatever leads into the loop: it stirs.
    have hback : Agree φ ψ back back' := by
      rcases hloops _ hs _ _ hst with himpure | hstirs
      · exact hbody.agree ((hcond himpure).relabel _ _)
      · exact hstirsBody hstirs
    have hhead := halike hback
    exact ⟨⟨fun hins => (hhead.agree hins).relabel _ _, ((hhead.relabel _ _).append hbody).reads⟩,
      fun hstirs => (hcond (hstirs.of_loop hst)).relabel _ _⟩
  | nil =>
    cases hlaid'
    refine ⟨⟨id, fun _ _ n hn => by cases hn⟩, fun hstirs => by cases hstirs⟩
  | cons _ _ ih₁ ih₂ =>
    cases hlaid' with
    | cons hfirst' hrest' =>
      rw [Part.stmts, List.forall_mem_cons] at hpart
      rw [List.forall_mem_append] at hns hns'
      obtain ⟨hfirst, hstirsFirst⟩ := ih₁ hfirst' hns.1 hns'.1 fun t ht =>
        List.mem_singleton.1 ht ▸ hpart.1
      obtain ⟨hrest, hstirsRest⟩ := ih₂ hrest' hns.2 hns'.2 hpart.2
      refine ⟨hfirst.append hrest, fun hstirs => ?_⟩
      cases hstirs with
      | head hstirs => exact hrest.agree (hstirsFirst hstirs)
      | tail hstirs => exact hstirsRest hstirs

end Statements

/-- Where no node of one graph of a body reads a variable whose value is known, none of any other
    graph does. -/
theorem Exhausted.readsUnknown (h : Exhausted p body) (hψ : ψ.Follows p body)
    (hloops : p.LoopsStir) (hn : n ∈ ψ.graph.order) : ReadsUnknown ψ.graph ψ.facts n := by
  obtain ⟨φ, hφ, hreads⟩ := h
  obtain ⟨ls, le, hl, hbody⟩ := hφ.lists
  obtain ⟨ns, last, outs, ends, horder, hlaid, _⟩ := hφ.laidOut
  obtain ⟨ns', last', outs', ends', horder', hlaid', hlast'⟩ := hψ.laidOut
  have hns : ∀ n ∈ ns, n ∈ φ.graph.order := fun n hn => by
    rw [horder]
    exact List.mem_append_left _ hn
  have hns' : ∀ n ∈ ns', n ∈ ψ.graph.order := fun n hn => by
    rw [horder']
    exact List.mem_append_left _ hn
  have halike := (alike_laid hφ hψ hl hloops hlaid hlaid' hns hns'
    (List.forall_mem_singleton.2 hbody)).1
  rw [horder', List.mem_append, List.mem_singleton] at hn
  rcases hn with hn | rfl
  · exact halike.reads .nil (fun k hk => hreads k (hns k hk)) n hn
  · intro v r parent hnode
    cases hlast'.node.symm.trans hnode

end Dataflow.Inlining
