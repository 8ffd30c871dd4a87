import Dataflow.Proofs.Drafts

/-!
# Edges that leave nodes

What leaves a node of the graph of a method is told by its kind: two edges where the way parts,
none at the end of the method and one anywhere else. The layout of a graph says which edges enter
each node (`Laid`). Both are the same edges: every edge that a stretch of nodes sends out enters one
of them, or is among those that leave the stretch (`Laid.balance`).

* `NodeKind.exits`: what leaves a node, by its kind;
* `Graph.LaidOut.departures_perm`: the edges that leave a node are just these;
* `Laid.internal`: an edge within a body is neither that of a call which throws nor that of a return;
* `Graph.LaidOut.target_of_not_internal`: so these lead to the end of the method.
-/

namespace Dataflow

/-! ### Edges that leave nodes -/

/-- The edges that leave a node of a method, by its kind. -/
def NodeKind.exits (n : NodeId) : NodeKind → List OpenEdge
  | .conditional _ => [(n, some .thenBranch), (n, some .elseBranch)]
  | .optionalThrow _ => [(n, some .noThrow), (n, some .throws)]
  | .finish => []
  | _ => [(n, none)]

theorem NodeKind.source_of_mem_exits {kind : NodeKind} {n : NodeId} {a : OpenEdge}
    (h : a ∈ kind.exits n) : a.1 = n := by
  cases kind <;> simp only [exits, List.mem_cons, List.not_mem_nil, or_false] at h
  case conditional | optionalThrow => rcases h with rfl | rfl <;> rfl
  all_goals rw [h]

theorem NodeKind.exits_of_isOperation {kind : NodeKind} (h : kind.isOperation = true) (n : NodeId) :
    kind.exits n = [(n, none)] := by
  cases kind <;> first | rfl | cases h

/-- What a statement does last is to write a variable, to decide or to jump. -/
theorem Stmt.lastKind_cases {st : Stmt} {kind : NodeKind} (h : st.lastKind = some kind) :
    (∃ v e, kind = .write v e) ∨ (∃ c, kind = .conditional c) ∨ kind = .goto := by
  cases st with
  | block | expr => cases h
  | declare v init =>
    cases init with
    | none => cases h
    | some e => exact .inl ⟨v, e, (Option.some.inj h).symm⟩
  | branch c | loop c => exact .inr (.inl ⟨c, (Option.some.inj h).symm⟩)
  | ret => exact .inr (.inr (Option.some.inj h).symm)

theorem Stmt.exists_write_of_isStraight {st : Stmt} {kind : NodeKind} (hst : st.isStraight = true)
    (h : st.lastKind = some kind) : ∃ v e, kind = .write v e := by
  cases st with
  | declare v init =>
    cases init with
    | none => cases h
    | some e => exact ⟨v, e, (Option.some.inj h).symm⟩
  | expr => cases h
  | block | branch | loop | ret => cases hst

namespace Graph

/-- The edges that leave a node, if it is one of a method. -/
def exits (g : Graph) (n : NodeId) : List OpenEdge :=
  (g.nodes.get? n).elim [] fun node => node.kind.exits n

/-- The edges that do leave a node, with their labels. -/
def departures (g : Graph) (n : NodeId) : List OpenEdge := (g.outEdges.get n).filterMap g.arrivalOf

/-- An edge leads from one node to another, with this label or with none. -/
def JoinsBy (g : Graph) (e : EdgeId) (n t : NodeId) (label : Option Label) : Prop :=
  g.edges.get? e = some ⟨some n, some t, label⟩

/-- An edge leaves a node with the label of an open edge. -/
def DepartsBy (g : Graph) (n : NodeId) (e : EdgeId) (a : OpenEdge) : Prop :=
  ∃ t, g.JoinsBy e n t a.2

variable {g : Graph} {n : NodeId}

theorem source_of_mem_exits {a : OpenEdge} (h : a ∈ g.exits n) : a.1 = n := by
  rw [exits] at h
  cases hnode : g.nodes.get? n with
  | none =>
    rw [hnode] at h
    cases h
  | some node =>
    rw [hnode] at h
    exact NodeKind.source_of_mem_exits h

namespace Wired

variable (hg : g.Wired)
include hg

theorem arrivalOf_of_mem_outEdges {e : EdgeId} (he : e ∈ g.outEdges.get n) :
    ∃ t label, g.edges.get? e = some ⟨some n, some t, label⟩ ∧ g.arrivalOf e = some (n, label) := by
  obtain ⟨t, label, hj⟩ := (hg.mem_outEdges n e).1 he
  exact ⟨t, label, hj, by rw [arrivalOf, hj]; rfl⟩

theorem source_of_mem_departures {a : OpenEdge} (h : a ∈ g.departures n) : a.1 = n := by
  obtain ⟨e, he, ha⟩ := List.mem_filterMap.1 h
  obtain ⟨_, _, _, harrival⟩ := hg.arrivalOf_of_mem_outEdges he
  cases harrival.symm.trans ha
  rfl

/-- The edges that leave nodes are those that enter nodes. -/
theorem flatMap_departures_perm :
    (g.order.flatMap g.departures).Perm (g.order.flatMap g.arrivals) := by
  have hout : (g.order.flatMap g.outEdges.get).Nodup := by
    refine List.nodup_flatMap.2 ⟨fun n _ => hg.outEdges_nodup n, hg.order_nodup.imp ?_⟩
    intro n m hnm e hn hm
    obtain ⟨_, hn⟩ := (hg.mem_outEdges n e).1 hn
    obtain ⟨_, hm⟩ := (hg.mem_outEdges m e).1 hm
    exact hnm (hn.source_eq hm)
  have hin : (g.order.flatMap g.inEdges.get).Nodup := by
    refine List.nodup_flatMap.2 ⟨fun n _ => hg.inEdges_nodup n, hg.order_nodup.imp ?_⟩
    intro n m hnm e hn hm
    obtain ⟨_, hn⟩ := (hg.mem_inEdges n e).1 hn
    obtain ⟨_, hm⟩ := (hg.mem_inEdges m e).1 hm
    exact hnm (hn.target_eq hm)
  have hperm : (g.order.flatMap g.outEdges.get).Perm (g.order.flatMap g.inEdges.get) := by
    refine (List.perm_ext_iff_of_nodup hout hin).2 fun e => ?_
    rw [List.mem_flatMap, List.mem_flatMap]
    constructor
    · rintro ⟨s, _, he⟩
      obtain ⟨t, hj⟩ := (hg.mem_outEdges s e).1 he
      exact ⟨t, hg.target_mem hj, (hg.mem_inEdges t e).2 ⟨s, hj⟩⟩
    · rintro ⟨t, _, he⟩
      obtain ⟨s, hj⟩ := (hg.mem_inEdges t e).1 he
      exact ⟨s, hg.source_mem hj, (hg.mem_outEdges s e).2 ⟨t, hj⟩⟩
  have hmap := hperm.filterMap g.arrivalOf
  rw [List.filterMap_flatMap, List.filterMap_flatMap] at hmap
  exact hmap

/-- The edges that leave a node, one for each departure. -/
theorem exists_outEdges {exits : List OpenEdge} (h : (g.departures n).Perm exits) :
    ∃ es, (g.outEdges.get n).Perm es ∧ List.Forall₂ (g.DepartsBy n) es exits := by
  have hall : ∀ es : List EdgeId, (∀ e ∈ es, e ∈ g.outEdges.get n) →
      List.Forall₂ (g.DepartsBy n) es (es.filterMap g.arrivalOf) := by
    intro es hes
    induction es with
    | nil => exact .nil
    | cons e es ih =>
      rw [List.forall_mem_cons] at hes
      obtain ⟨t, label, hj, harrival⟩ := hg.arrivalOf_of_mem_outEdges hes.1
      rw [List.filterMap_cons_some harrival]
      exact .cons ⟨t, hj⟩ (ih hes.2)
  have hstart : Relation.Comp (List.Forall₂ (g.DepartsBy n)) List.Perm (g.outEdges.get n) exits :=
    ⟨_, hall _ fun _ he => he, h⟩
  rw [List.forall₂_comp_perm_eq_perm_comp_forall₂] at hstart
  exact hstart

end Wired

end Graph

/-- Of lists that are alike together, the parts that come from one member are alike. -/
theorem perm_of_flatMap_perm {l : List NodeId} (hl : l.Nodup) {f f' : NodeId → List OpenEdge}
    (hf : ∀ m, ∀ a ∈ f m, a.1 = m) (hf' : ∀ m, ∀ a ∈ f' m, a.1 = m)
    (h : (l.flatMap f).Perm (l.flatMap f')) {n : NodeId} (hn : n ∈ l) : (f n).Perm (f' n) := by
  have hpart : ∀ f : NodeId → List OpenEdge, (∀ m, ∀ a ∈ f m, a.1 = m) →
      (l.flatMap f).filter (fun a => decide (a.1 = n)) = f n := by
    intro f hf
    have hnil : ∀ ms : List NodeId, n ∉ ms →
        (ms.flatMap f).filter (fun a => decide (a.1 = n)) = [] := by
      intro ms hms
      refine List.filter_eq_nil_iff.2 fun a ha han => ?_
      obtain ⟨m, hm, ha⟩ := List.mem_flatMap.1 ha
      exact hms ((hf m a ha).symm.trans (of_decide_eq_true han) ▸ hm)
    obtain ⟨before, after, rfl⟩ := List.append_of_mem hn
    have hnot := List.nodup_append.1 hl
    rw [List.flatMap_append, List.filter_append, hnil before fun hb =>
      hnot.2.2 n hb n List.mem_cons_self rfl, List.flatMap_cons, List.filter_append,
      hnil after (List.nodup_cons.1 hnot.2.1).1, List.append_nil, List.nil_append]
    exact List.filter_eq_self.2 fun a ha => decide_eq_true (hf n a ha)
  have hfilter := h.filter fun a => decide (a.1 = n)
  rwa [hpart f hf, hpart f' hf'] at hfilter

/-! ### What enters and what leaves a stretch -/

section Balance

variable {g : Graph} {p : Program} {parent : Option NodeId} {ins outs ends back : List OpenEdge}
  {ns : List NodeId} {s : StmtId} {st : Stmt}

theorem Sits.exits_eq {n : NodeId} {kind : NodeKind} {origin : Origin}
    (h : Sits g n kind origin parent ins) : g.exits n = kind.exits n := by
  rw [Graph.exits, h.node]
  rfl

/-- Every edge that enters a row or leaves one of its nodes enters one of its nodes or leaves the
    row. -/
theorem Spelled.balance {os : List Operation} (h : Spelled g parent os ins ns outs ends)
    (hos : ∀ o ∈ os, o.kind.isOperation = true) (a : OpenEdge) :
    (ns.flatMap g.exits).count a + ins.count a =
      (ns.flatMap g.arrivals).count a + (outs.count a + ends.count a) := by
  induction h with
  | nil => simp
  | op hn _ ih =>
    rw [List.forall_mem_cons] at hos
    have hrest := ih hos.2
    rw [List.flatMap_cons, List.flatMap_cons, List.count_append, List.count_append, hn.exits_eq,
      NodeKind.exits_of_isOperation hos.1, hn.arrivals]
    omega
  | @call o e os m n ns ins outs ends ho hm hn _ ih =>
    rw [List.forall_mem_cons] at hos
    have hrest := ih hos.2
    have hparts : (NodeKind.exits m (.optionalThrow e)).count a =
        [(m, some Label.noThrow)].count a + [(m, some Label.throws)].count a := by
      rw [← List.count_append]
      rfl
    have hends : ((m, some Label.throws) :: ends).count a =
        [(m, some Label.throws)].count a + ends.count a := by
      rw [← List.count_append]
      rfl
    simp only [List.flatMap_cons, List.count_append, hm.exits_eq, hn.exits_eq, hm.arrivals,
      hn.arrivals, hparts, hends, show NodeKind.exits n (.call e) = [(n, none)] from rfl]
    omega
  | nop hn _ ih =>
    have hrest := ih hos
    rw [List.flatMap_cons, List.flatMap_cons, List.count_append, List.count_append, hn.exits_eq,
      hn.arrivals, show NodeKind.exits _ .nop = [(_, none)] from rfl]
    omega

/-- The same of a statement. What leaves the node of what it does last takes the place of the one
    edge that is said to. -/
theorem Headed.balance (h : Headed g p parent s st back ins ns outs ends) : ∃ parting,
    (∀ a, (ns.flatMap g.exits).count a + (ins.count a + back.count a) =
      (ns.flatMap g.arrivals).count a + (parting.count a + ends.count a)) ∧
    ((st.lastKind = none ∧ parting = outs) ∨
      ∃ kind k, st.lastKind = some kind ∧ outs = [(k, none)] ∧ parting = kind.exits k) := by
  have hstatement : ∀ n, NodeKind.exits n .statement = [(n, none)] := fun _ => rfl
  cases h with
  | @plain os n ns _ _ _ hst hn hos hrow =>
    obtain ⟨_, hem⟩ := Emits.exists_of_spells hos
    refine ⟨outs, fun a => ?_, .inl ⟨hst, rfl⟩⟩
    have hbalance := hrow.balance hem.isOperation a
    rw [List.count_cons] at hbalance
    simp only [List.flatMap_cons, List.count_append, hn.exits_eq, hn.arrivals, hstatement,
      List.count_cons, List.count_nil]
    omega
  | @last os kind n k ns _ mid _ hst hn hos hrow hk =>
    obtain ⟨_, hem⟩ := Emits.exists_of_spells hos
    refine ⟨kind.exits k, fun a => ?_, .inr ⟨kind, k, hst, rfl, rfl⟩⟩
    have hbalance := hrow.balance hem.isOperation a
    rw [List.count_cons] at hbalance
    simp only [List.flatMap_cons, List.flatMap_append, List.flatMap_nil, List.count_append,
      hn.exits_eq, hn.arrivals, hk.exits_eq, hk.arrivals, hstatement, List.count_cons,
      List.count_nil]
    omega

/-- The same of statements. -/
theorem Laid.balance {part : Part} (h : Laid g p parent part ins ns outs ends) (a : OpenEdge) :
    (ns.flatMap g.exits).count a + ins.count a =
      (ns.flatMap g.arrivals).count a + (outs.count a + ends.count a) := by
  induction h with
  | @block s ss parent n ns ins outs ends _ hn _ ih =>
    rw [List.flatMap_cons, List.flatMap_cons, List.count_append, List.count_append, hn.exits_eq,
      hn.arrivals, show NodeKind.exits n .block = [(n, none)] from rfl]
    omega
  | @straight s st parent ns ins outs ends _ hst hh =>
    obtain ⟨parting, hbalance, hlast⟩ := hh.balance
    have := hbalance a
    have hparting : parting = outs := by
      rcases hlast with ⟨_, rfl⟩ | ⟨kind, k, hkind, rfl, rfl⟩
      · rfl
      · obtain ⟨_, _, rfl⟩ := Stmt.exists_write_of_isStraight hst hkind
        rfl
    rw [hparting, List.count_nil] at this
    omega
  | ret _ hh =>
    obtain ⟨parting, hbalance, ⟨hnone, _⟩ | ⟨kind, k, hkind, rfl, rfl⟩⟩ := hh.balance
    · cases hnone
    · cases hkind
      have := hbalance a
      rw [show NodeKind.exits k .goto = [(k, none)] from rfl, List.count_nil] at this
      rw [List.count_append, List.count_nil]
      omega
  | @branch s t c els parent n k ns ts es ins outs₁ outs₂ ends ends₁ ends₂ _ hh _ _ ih₁ ih₂ =>
    obtain ⟨parting, hbalance, ⟨hnone, _⟩ | ⟨kind, k', hkind, hout, rfl⟩⟩ := hh.balance
    · cases hnone
    · cases hkind
      cases hout
      have := hbalance a
      rw [show NodeKind.exits k (.conditional c) = [(k, some Label.thenBranch)] ++
        [(k, some Label.elseBranch)] from rfl, List.count_append, List.count_nil] at this
      rw [← List.cons_append, List.flatMap_append, List.flatMap_append, List.flatMap_append,
        List.flatMap_append]
      simp only [List.count_append]
      omega
  | @loop s b c parent n k ns bs ins back ends ends₁ _ hh _ ih =>
    obtain ⟨parting, hbalance, ⟨hnone, _⟩ | ⟨kind, k', hkind, hout, rfl⟩⟩ := hh.balance
    · cases hnone
    · cases hkind
      cases hout
      have := hbalance a
      rw [show NodeKind.exits k (.conditional c) = [(k, some Label.thenBranch)] ++
        [(k, some Label.elseBranch)] from rfl, List.count_append] at this
      rw [← List.cons_append, List.flatMap_append, List.flatMap_append]
      simp only [List.count_append]
      omega
  | nil => simp
  | cons _ _ ih₁ ih₂ =>
    rw [List.flatMap_append, List.flatMap_append]
    simp only [List.count_append]
    omega

/-- The edges that leave a node of a method are told by its kind. -/
theorem Graph.LaidOut.departures_perm {body : StmtId} (h : g.LaidOut p body) (hg : g.Wired)
    {n : NodeId} (hn : n ∈ g.order) : (g.departures n).Perm (g.exits n) := by
  obtain ⟨ns, last, outs, ends, horder, hlaid, hlast⟩ := h
  have hbalance : (g.order.flatMap g.arrivals).Perm (g.order.flatMap g.exits) := by
    refine List.perm_iff_count.2 fun a => ?_
    have := hlaid.balance a
    rw [horder, List.flatMap_append, List.flatMap_append]
    simp only [List.flatMap_cons, List.flatMap_nil, List.append_nil, List.count_append,
      hlast.arrivals, hlast.exits_eq, show NodeKind.exits last .finish = [] from rfl,
      List.count_nil] at this ⊢
    omega
  exact perm_of_flatMap_perm hg.order_nodup (fun _ _ => hg.source_of_mem_departures)
    (fun _ _ => source_of_mem_exits) (hg.flatMap_departures_perm.trans hbalance) hn

end Balance

/-! ### What leads to the end of the method -/

/-- An edge that is neither that of a call which throws nor that of a return. -/
def Graph.Internal (g : Graph) (a : OpenEdge) : Prop :=
  a.2 ≠ some .throws ∧ ∀ node, g.nodes.get? a.1 = some node → node.kind ≠ .goto

section Internal

variable {g : Graph} {p : Program} {parent : Option NodeId} {ins outs ends back : List OpenEdge}
  {ns : List NodeId} {s : StmtId} {st : Stmt}

theorem Sits.internal {n : NodeId} {kind : NodeKind} {origin : Origin}
    (h : Sits g n kind origin parent ins) (hkind : kind ≠ .goto) (label : Option Label)
    (hlabel : label ≠ some .throws) : ∀ a ∈ [(n, label)], g.Internal a := by
  intro a ha
  rw [List.mem_singleton.1 ha]
  refine ⟨hlabel, fun node hnode => ?_⟩
  cases h.node.symm.trans hnode
  exact hkind

/-- In a row all edges are internal, if those that enter it are. -/
theorem Spelled.internal {os : List Operation} (h : Spelled g parent os ins ns outs ends)
    (hos : ∀ o ∈ os, o.kind.isOperation = true) (hins : ∀ a ∈ ins, g.Internal a) :
    (∀ n ∈ ns, ∀ a ∈ g.arrivals n, g.Internal a) ∧ ∀ a ∈ outs, g.Internal a := by
  induction h with
  | nil => exact ⟨fun n hn => absurd hn List.not_mem_nil, hins⟩
  | @op o os n ns ins outs ends hn _ ih =>
    rw [List.forall_mem_cons] at hos
    have hkind : o.kind ≠ .goto := fun h => by simp [h, NodeKind.isOperation] at hos
    obtain ⟨hrow, hout⟩ := ih hos.2 (hn.internal hkind _ (by simp))
    exact ⟨List.forall_mem_cons.2 ⟨hn.arrivals ▸ hins, hrow⟩, hout⟩
  | call _ hm hn _ ih =>
    rw [List.forall_mem_cons] at hos
    obtain ⟨hrow, hout⟩ := ih hos.2 (hn.internal (by simp) _ (by simp))
    have hcall := hm.internal (by simp) (some .noThrow) (by simp)
    exact ⟨List.forall_mem_cons.2 ⟨hm.arrivals ▸ hins,
      List.forall_mem_cons.2 ⟨hn.arrivals ▸ hcall, hrow⟩⟩, hout⟩
  | nop hn _ ih =>
    obtain ⟨hrow, hout⟩ := ih hos (hn.internal (by simp) _ (by simp))
    exact ⟨List.forall_mem_cons.2 ⟨hn.arrivals ▸ hins, hrow⟩, hout⟩

theorem Headed.internal (h : Headed g p parent s st back ins ns outs ends)
    (hins : ∀ a ∈ ins, g.Internal a) (hback : ∀ a ∈ back, g.Internal a) :
    (∀ n ∈ ns, ∀ a ∈ g.arrivals n, g.Internal a) ∧
      (st.lastKind ≠ some .goto → ∀ a ∈ outs, g.Internal a) := by
  cases h with
  | plain _ hn hos hrow =>
    obtain ⟨_, hem⟩ := Emits.exists_of_spells hos
    have hown := hn.internal (by simp) none (by simp)
    obtain ⟨hall, hout⟩ := hrow.internal hem.isOperation
      (List.forall_mem_cons.2 ⟨hown _ (List.mem_singleton_self _), hback⟩)
    exact ⟨List.forall_mem_cons.2 ⟨hn.arrivals ▸ hins, hall⟩, fun _ => hout⟩
  | last hst hn hos hrow hk =>
    obtain ⟨_, hem⟩ := Emits.exists_of_spells hos
    have hown := hn.internal (by simp) none (by simp)
    obtain ⟨hall, hmid⟩ := hrow.internal hem.isOperation
      (List.forall_mem_cons.2 ⟨hown _ (List.mem_singleton_self _), hback⟩)
    refine ⟨List.forall_mem_cons.2 ⟨hn.arrivals ▸ hins, List.forall_mem_append.2
      ⟨hall, List.forall_mem_cons.2 ⟨hk.arrivals ▸ hmid, by simp⟩⟩⟩, fun hlast => ?_⟩
    exact hk.internal (fun hgoto => hlast (hgoto ▸ hst)) _ (by simp)

/-- Within a method all edges are internal: what a call throws and what a return does leads to
    the end. -/
theorem Laid.internal {part : Part} (h : Laid g p parent part ins ns outs ends)
    (hins : ∀ a ∈ ins, g.Internal a) :
    (∀ n ∈ ns, ∀ a ∈ g.arrivals n, g.Internal a) ∧ ∀ a ∈ outs, g.Internal a := by
  induction h with
  | block _ hn _ ih =>
    obtain ⟨hrest, hout⟩ := ih (hn.internal (by simp) _ (by simp))
    exact ⟨List.forall_mem_cons.2 ⟨hn.arrivals ▸ hins, hrest⟩, hout⟩
  | @straight s st parent ns ins outs ends _ hst hh =>
    obtain ⟨hall, hout⟩ := hh.internal hins (by simp)
    refine ⟨hall, hout fun hlast => ?_⟩
    obtain ⟨_, _, hwrite⟩ := Stmt.exists_write_of_isStraight hst hlast
    cases hwrite
  | ret _ hh => exact ⟨(hh.internal hins (by simp)).1, by simp⟩
  | branch _ hh _ _ ih₁ ih₂ =>
    obtain ⟨_, _, k, _, _, _, hout, _, _, _, hk⟩ := hh.exists_last rfl
    cases hout
    obtain ⟨hall₁, hout₁⟩ := ih₁ (hk.internal (by simp) _ (by simp))
    obtain ⟨hall₂, hout₂⟩ := ih₂ (hk.internal (by simp) _ (by simp))
    rw [← List.cons_append]
    exact ⟨List.forall_mem_append.2 ⟨(hh.internal hins (by simp)).1,
      List.forall_mem_append.2 ⟨hall₁, hall₂⟩⟩, List.forall_mem_append.2 ⟨hout₂, hout₁⟩⟩
  | loop _ hh _ ih =>
    obtain ⟨_, _, k, _, _, _, hout, _, _, _, hk⟩ := hh.exists_last rfl
    cases hout
    obtain ⟨hall, hback⟩ := ih (hk.internal (by simp) _ (by simp))
    rw [← List.cons_append]
    exact ⟨List.forall_mem_append.2 ⟨(hh.internal hins hback).1, hall⟩,
      hk.internal (by simp) _ (by simp)⟩
  | nil => exact ⟨by simp, hins⟩
  | cons _ _ ih₁ ih₂ =>
    obtain ⟨hall₁, hmid⟩ := ih₁ hins
    obtain ⟨hall₂, hout⟩ := ih₂ hmid
    exact ⟨List.forall_mem_append.2 ⟨hall₁, hall₂⟩, hout⟩

/-- An edge that is not internal leads to the end of the method. -/
theorem Graph.LaidOut.target_of_not_internal {body : StmtId} (h : g.LaidOut p body) (hg : g.Wired)
    {e : EdgeId} {n t : NodeId} {label : Option Label} (he : g.JoinsBy e n t label)
    (hout : ¬g.Internal (n, label)) : g.order.getLast? = some t := by
  obtain ⟨ns, last, outs, ends, horder, hlaid, _⟩ := h
  have ht : t ∈ ns ++ [last] := horder ▸ hg.target_mem ⟨label, he⟩
  rcases List.mem_append.1 ht with ht | ht
  · exact absurd ((hlaid.internal (by simp)).1 t ht _ (hg.mem_arrivals.2 ⟨e, he⟩)) hout
  · rw [horder, List.getLast?_concat, List.mem_singleton.1 ht]

end Internal

end Dataflow
