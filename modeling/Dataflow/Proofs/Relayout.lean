import Dataflow.Proofs.EditedOperations
import Dataflow.Proofs.Fragments
import Dataflow.Proofs.Layout

/-!
# The layout after a rewrite

A rewrite puts a copy of an expression in place of a read, both in the program and in the
graph. The graph then follows the program again: the nodes of the copy stand where the node of
the read stood.

* `Graph.Linked.retarget`: naming another expression leaves a graph linked;
* `Graph.Rewritten`: the graph after a rewrite, as seen from the graph before it;
* `Graph.Rewritten.laidOut`: it follows the program after the rewrite.
-/

namespace Dataflow

namespace Graph

variable {g : Graph}

theorem Linked.retarget (hg : g.Linked) (r c : ExprId) : (g.retarget r c).2.Linked where
  order_nodup := hg.order_nodup
  allocated n hn := by
    rw [show (g.retarget r c).2.nodes.size = g.nodes.size from Arena.size_foldl_modify _ _ _]
    exact hg.allocated n hn
  kept := hg.kept
  unremoved n hn := by
    rw [show (g.retarget r c).2.nodes.size = g.nodes.size from Arena.size_foldl_modify _ _ _] at hn
    exact hg.unremoved n hn
  ends := hg.ends
  mem_inEdges := hg.mem_inEdges
  mem_outEdges := hg.mem_outEdges
  inEdges_nodup := hg.inEdges_nodup
  outEdges_nodup := hg.outEdges_nodup
  inPorts := hg.inPorts
  outPorts := hg.outPorts
  entry := hg.entry
  exit := hg.exit

theorem Linked.nodes_retarget (hg : g.Linked) (r c : ExprId) {n : NodeId} (hn : n ∈ g.order) :
    (g.retarget r c).2.nodes.get? n = (g.nodes.get? n).map (Node.retarget r c) := by
  refine (Arena.get?_foldl_modify hg.order_nodup _ _ _).trans ?_
  rw [if_pos hn]

end Graph

/-! ### Rows of nodes -/

/-- A row of nodes for operations, with nodes for expressions without one in between. -/
inductive RowSpells (parent : Option NodeId) : List Operation → List Node → Prop
  | nil : RowSpells parent [] []
  | op {o : Operation} {os : List Operation} {row : List Node} : RowSpells parent os row →
    RowSpells parent (o :: os) (⟨o.kind, .expr o.expr, parent⟩ :: row)
  | nop {e : ExprId} {os : List Operation} {row : List Node} : RowSpells parent os row →
    RowSpells parent os (⟨.nop, .expr e, parent⟩ :: row)

section Rows

variable {parent : Option NodeId} {os : List Operation} {row : List Node}

theorem rowSpells_map (h : RowSpells parent [] row) (os : List Operation) :
    RowSpells parent os (os.map (fun o => ⟨o.kind, .expr o.expr, parent⟩) ++ row) := by
  induction os with
  | nil => exact h
  | cons o os ih => exact .op ih

/-- The nodes that take the place of a node with the parent `parent` where the expression `e` is
    put there, the operations of `e` being `os`. -/
def insertedRow (parent : Option NodeId) (e : ExprId) (os : List Operation) : List Node :=
  (fragmentRow e os).map fun node => { node with parent }

theorem insertedRow_ne_nil (parent : Option NodeId) (e : ExprId) (os : List Operation) :
    insertedRow parent e os ≠ [] := fun h =>
  fragmentRow_ne_nil e os (List.map_eq_nil_iff.1 h)

theorem rowSpells_insertedRow (parent : Option NodeId) (e : ExprId) (os : List Operation) :
    RowSpells parent os (insertedRow parent e os) := by
  rw [insertedRow, fragmentRow, List.map_append, List.map_map]
  refine rowSpells_map ?_ os
  split
  · exact .nil
  · exact .nop .nil

/-- A row of nodes from the handle `start` on, each entered from the one before and the first one
    by `ins`. -/
structure Graph.InRow (g : Graph) (start : Nat) (row : List Node) (ins : List OpenEdge) : Prop where
  node : ∀ i node, row[i]? = some node → g.nodes.get? ⟨start + i⟩ = some node
  next : ∀ i, i + 1 < row.length → g.arrivals ⟨start + i + 1⟩ = [(⟨start + i⟩, none)]
  first : row ≠ [] → g.arrivals ⟨start⟩ = ins

variable {g : Graph} {start : Nat} {ins : List OpenEdge} {node : Node}

theorem Graph.InRow.sits (h : g.InRow start (node :: row) ins) :
    Sits g ⟨start⟩ node.kind node.origin node.parent ins :=
  ⟨h.node 0 node rfl, h.first (List.cons_ne_nil _ _)⟩

theorem Graph.InRow.tail (h : g.InRow start (node :: row) ins) :
    g.InRow (start + 1) row [(⟨start⟩, none)] where
  node i node hi := by
    rw [Nat.add_assoc, Nat.add_comm 1]
    exact h.node (i + 1) node hi
  next i hi := by
    have := h.next (i + 1) (by simpa using hi)
    rwa [← Nat.add_assoc, Nat.add_right_comm start i 1] at this
  first hne := h.next 0 (by simpa using List.length_pos_iff.2 hne)

/-- The open edges that leave a row. -/
def rowOuts (start : Nat) (row : List Node) (ins : List OpenEdge) : List OpenEdge :=
  if row = [] then ins else [(⟨start + (row.length - 1)⟩, none)]

theorem rowOuts_cons : rowOuts start (node :: row) ins = rowOuts (start + 1) row [(⟨start⟩, none)] := by
  cases row with
  | nil => rfl
  | cons node' row =>
    simp [rowOuts, Nat.add_assoc, Nat.add_comm 1]

/-- A row of nodes for operations spells them. -/
theorem RowSpells.spelled (h : RowSpells parent os row) (hrow : g.InRow start row ins) :
    Spelled g parent os ins ((List.range' start row.length).map Handle.mk)
      (rowOuts start row ins) [] := by
  induction h generalizing start ins with
  | nil => exact .nil
  | op _ ih =>
    rw [List.length_cons, List.range'_succ, List.map_cons, rowOuts_cons]
    exact .op hrow.sits (ih hrow.tail)
  | nop _ ih =>
    rw [List.length_cons, List.range'_succ, List.map_cons, rowOuts_cons]
    exact .nop hrow.sits (ih hrow.tail)

end Rows

theorem Spelled.append {g : Graph} {parent : Option NodeId} {os os' : List Operation}
    {ins mid outs ends ends' : List OpenEdge} {ns ns' : List NodeId}
    (h : Spelled g parent os ins ns mid ends) (h' : Spelled g parent os' mid ns' outs ends') :
    Spelled g parent (os ++ os') ins (ns ++ ns') outs (ends ++ ends') := by
  induction h with
  | nil => exact h'
  | op hn _ ih => exact .op hn (ih h')
  | call ho hm hn _ ih => exact .call ho hm hn (ih h')
  | nop hn _ ih => exact .nop hn (ih h')

/-! ### Stretches after a rewrite -/

namespace Graph

/-- The graph `g'` has the nodes `new`, which spell `oc`, in place of the node `n` of `g`, and
    names `c` where `g` names `r`. -/
structure Rewritten (g : Graph) (n : NodeId) (parent : Option NodeId) (r c : ExprId)
    (oc : List Operation) (new : List NodeId) (last : NodeId) (g' : Graph) : Prop where
  linked : g'.Linked
  order : g'.order = g.order.flatMap (inPlaceOf n new)
  node : ∀ m ∈ g.order, m ≠ n → g'.nodes.get? m = (g.nodes.get? m).map (Node.retarget r c)
  arrivals : ∀ m ∈ g.order, m ≠ n → g'.arrivals m = (g.arrivals m).map (movedArrival n last)
  spelled : Spelled g' parent oc ((g.arrivals n).map (movedArrival n last)) new [(last, none)] []

/-- A node that alone reads a variable for an expression. -/
structure ReadsAlone (g : Graph) (n : NodeId) (parent : Option NodeId) (r : ExprId) : Prop where
  mem : n ∈ g.order
  node : ∃ v, g.nodes.get? n = some ⟨.read v, .expr r, parent⟩
  unique : ∀ m ∈ g.order, ∀ v parent', g.nodes.get? m = some ⟨.read v, .expr r, parent'⟩ → m = n

theorem ReadsAlone.ne_of_kind {g : Graph} {n m : NodeId} {parent parent' : Option NodeId}
    {r : ExprId} {kind : NodeKind} {origin : Origin} {ins : List OpenEdge}
    (h : g.ReadsAlone n parent r) (hs : Sits g m kind origin parent' ins)
    (hkind : ∀ v, kind ≠ .read v) : m ≠ n := by
  rintro rfl
  obtain ⟨v, hv⟩ := h.node
  rw [hs.node] at hv
  cases hv
  exact hkind v rfl

namespace Rewritten

variable {g g' : Graph} {n last : NodeId} {parent parent' : Option NodeId} {r c : ExprId}
  {oc : List Operation} {new : List NodeId} {ins outs ends : List OpenEdge}

theorem movedArrival_of_ne {m : NodeId} (h : m ≠ n) (label : Option Label) :
    movedArrival n last (m, label) = (m, label) := by
  rw [movedArrival, moved, if_neg h]

/-- Any other node says and is entered by what it was before, with the names changed. -/
theorem sits (h : g.Rewritten n parent r c oc new last g') {m : NodeId} {kind : NodeKind}
    {origin : Origin} (hs : Sits g m kind origin parent' ins) (hm : m ∈ g.order) (hmn : m ≠ n) :
    Sits g' m (kind.retarget r c) (if origin = .expr r then .expr c else origin) parent'
      (ins.map (movedArrival n last)) where
  node := by
    rw [h.node m hm hmn, hs.node]
    rfl
  arrivals := by rw [h.arrivals m hm hmn, hs.arrivals]

variable (h : g.Rewritten n parent r c oc new last g') (hread : g.ReadsAlone n parent r)
include h hread

theorem spells {os : List Operation} {ns : List NodeId}
    (hos : ∀ o ∈ os, o.expr = r → ∃ v, o.kind = .read v)
    (hs : Spelled g parent' os ins ns outs ends) (hns : ∀ m ∈ ns, m ∈ g.order) :
    Spelled g' parent' (os.flatMap (Operation.edit r c oc)) (ins.map (movedArrival n last))
      (ns.flatMap (inPlaceOf n new)) (outs.map (movedArrival n last))
      (ends.map (movedArrival n last)) := by
  induction hs with
  | nil => exact .nil
  | @op o os m ns ins outs ends hm _ ih =>
    rw [List.forall_mem_cons] at hos hns
    rw [List.flatMap_cons, List.flatMap_cons, Operation.edit]
    have hrest := ih hos.2 hns.2
    by_cases hmn : m = n
    · -- The node of the read gives its place to those of the copy.
      subst hmn
      obtain ⟨v, hv⟩ := hread.node
      rw [hm.node, Option.some.injEq, Node.mk.injEq, Origin.expr.injEq] at hv
      obtain ⟨_, hr, rfl⟩ := hv
      have hnew := h.spelled
      rw [hm.arrivals] at hnew
      rw [List.map_singleton, movedArrival, moved, if_pos rfl] at hrest
      rw [if_pos hr, inPlaceOf_self]
      exact hnew.append hrest
    · have hr : o.expr ≠ r := by
        intro hr
        obtain ⟨v, hv⟩ := hos.1 hr
        exact hmn (hread.unique m hns.1 v parent' (by rw [hm.node, hv, hr]))
      have hsits := h.sits hm hns.1 hmn
      rw [if_neg (by simpa using hr)] at hsits
      rw [List.map_singleton, movedArrival_of_ne hmn] at hrest
      rw [if_neg hr, inPlaceOf_of_ne _ hmn]
      exact .op hsits hrest
  | @call o e os m k ns ins outs ends ho hm hk _ ih =>
    rw [List.forall_mem_cons] at hos
    rw [List.forall_mem_cons, List.forall_mem_cons] at hns
    have hmn := hread.ne_of_kind hm fun v => NodeKind.noConfusion
    have hkn := hread.ne_of_kind hk fun v => NodeKind.noConfusion
    have hr : o.expr ≠ r := by
      intro hr
      obtain ⟨v, hv⟩ := hos.1 hr
      rw [ho] at hv
      cases hv
    have hsits := h.sits hm hns.1 hmn
    have hsits' := h.sits hk hns.2.1 hkn
    have hrest := ih hos.2 hns.2.2
    rw [if_neg (by simpa using hr)] at hsits hsits'
    rw [List.map_singleton, movedArrival_of_ne hmn] at hsits'
    rw [List.map_singleton, movedArrival_of_ne hkn] at hrest
    rw [List.flatMap_cons, List.flatMap_cons, List.flatMap_cons, Operation.edit, if_neg hr,
      inPlaceOf_of_ne _ hmn, inPlaceOf_of_ne _ hkn, List.map_cons, movedArrival_of_ne hmn]
    exact .call (by rw [Operation.retarget, ho]; rfl) hsits hsits' hrest
  | @nop e os m ns ins outs ends hm _ ih =>
    rw [List.forall_mem_cons] at hns
    have hmn := hread.ne_of_kind hm fun v => NodeKind.noConfusion
    have hsits := h.sits hm hns.1 hmn
    have hrest := ih hos hns.2
    rw [List.map_singleton, movedArrival_of_ne hmn] at hrest
    rw [List.flatMap_cons, inPlaceOf_of_ne _ hmn]
    split at hsits
    · exact .nop hsits hrest
    · exact .nop hsits hrest

end Rewritten

end Graph

/-- The operation of a variable is a read. -/
theorem Emits.kind_of_var {p : Program} {es l : List ExprId} {os : List Operation}
    (h : Emits p es l os) {o : Operation} (ho : o ∈ os) {v : VarId}
    (hv : p.exprs.get? o.expr = some (.var v)) : o.kind = .read v := by
  obtain ⟨_, x, ins, own, hx, hown, ho⟩ := h.exists_of_mem ho
  rw [hv] at hx
  cases hx
  cases hown
  rw [List.mem_singleton.1 ho]

theorem Stmt.lastKind_redirect (r c : ExprId) (st : Stmt) :
    (st.redirect r c).lastKind = st.lastKind.map (NodeKind.retarget r c) := by
  cases st with
  | declare v init => cases init <;> rfl
  | ret value => cases value <;> rfl
  | _ => rfl

theorem Stmt.isStraight_redirect (r c : ExprId) (st : Stmt) :
    (st.redirect r c).isStraight = st.isStraight := by
  cases st with
  | declare v init => cases init <;> rfl
  | ret value => cases value <;> rfl
  | _ => rfl

theorem Stmt.ne_read_of_lastKind {st : Stmt} {kind : NodeKind} (h : st.lastKind = some kind)
    (v : VarId) : kind ≠ .read v := by
  rintro rfl
  cases st with
  | declare _ init => cases init <;> cases h
  | _ => cases h

/-- The statements of a part. -/
def Part.stmts : Part → List StmtId
  | stmt s => [s]
  | seq ss => ss

namespace Graph.Rewritten

variable {g g' : Graph} {n last : NodeId} {parent parent' : Option NodeId} {r c a : ExprId}
  {oc : List Operation} {new ns : List NodeId} {back ins outs ends : List OpenEdge}
  {p q : Program} {ls : List StmtId} {le la lc : List ExprId} {s : StmtId} {st : Stmt}
  (h : g.Rewritten n parent r c oc new last g') (hread : g.ReadsAlone n parent r)
  (hedit : p.Edited q r c a ls le la lc) (hp : p.Lists ls le) (hc : Emits q [c] lc oc)
  (hr : ∀ e ∈ le, ∀ x, p.exprs.get? e = some x → r ∉ x.targets)
include h hread hedit hp hc hr

/-- A statement's own node, its expressions and what it does last, after a rewrite. -/
theorem headed (hs : s ∈ ls) (hst : p.stmts.get? s = some st)
    (hh : Headed g p parent' s st back ins ns outs ends) (hns : ∀ m ∈ ns, m ∈ g.order) :
    Headed g' q parent' s (st.redirect r c) (back.map (movedArrival n last))
      (ins.map (movedArrival n last)) (ns.flatMap (inPlaceOf n new))
      (outs.map (movedArrival n last)) (ends.map (movedArrival n last)) := by
  have hos : ∀ os, p.Spells st.exprs os → ∀ o ∈ os, o.expr = r → ∃ v, o.kind = .read v := by
    intro os hos o ho hor
    obtain ⟨l, hl⟩ := Emits.exists_of_spells hos
    obtain ⟨v, hv⟩ := hedit.var
    exact ⟨v, hl.kind_of_var ho (hor ▸ hv)⟩
  cases hh with
  | @plain os m ns _ _ _ hlast hm hspells hrow =>
    rw [List.forall_mem_cons] at hns
    have hmn := hread.ne_of_kind hm fun v => NodeKind.noConfusion
    have hrow' := h.spells hread (hos os hspells) hrow hns.2
    rw [List.map_cons, movedArrival_of_ne hmn] at hrow'
    rw [List.flatMap_cons, inPlaceOf_of_ne _ hmn]
    refine .plain ?_ (h.sits hm hns.1 hmn) (hedit.spells hp hc hr hs hst hspells) hrow'
    rw [Stmt.lastKind_redirect, hlast]
    rfl
  | @last os kind m k ns _ mid _ hlast hm hspells hrow hk =>
    rw [List.forall_mem_cons, List.forall_mem_append] at hns
    have hmn := hread.ne_of_kind hm fun v => NodeKind.noConfusion
    have hkn := hread.ne_of_kind hk (Stmt.ne_read_of_lastKind hlast)
    have hrow' := h.spells hread (hos os hspells) hrow hns.2.1
    rw [List.map_cons, movedArrival_of_ne hmn] at hrow'
    rw [List.flatMap_cons, inPlaceOf_of_ne _ hmn, List.flatMap_append, List.flatMap_singleton,
      inPlaceOf_of_ne _ hkn, List.map_singleton, movedArrival_of_ne hkn]
    refine .last ?_ (h.sits hm hns.1 hmn) (hedit.spells hp hc hr hs hst hspells) hrow'
      (h.sits hk (hns.2.2 k (List.mem_singleton_self k)) hkn)
    rw [Stmt.lastKind_redirect, hlast]
    rfl

omit h hedit hp hc hr in
/-- The first node of a statement is its own, and the way parts at what it does last. -/
theorem head_ne {m k : NodeId} {kind : NodeKind} (hst : st.lastKind = some kind)
    (hh : Headed g p parent' s st back ins (m :: ns) [(k, none)] ends) : m ≠ n ∧ k ≠ n := by
  generalize hall : m :: ns = all at hh
  generalize hout : [(k, (none : Option Label))] = out at hh
  cases hh with
  | plain hnone =>
    rw [hst] at hnone
    cases hnone
  | last hlast hm _ _ hk =>
    obtain ⟨rfl, _⟩ := List.cons.inj hall
    obtain ⟨rfl, _⟩ := Prod.mk.inj (List.cons.inj hout).1
    exact ⟨hread.ne_of_kind hm fun v => NodeKind.noConfusion,
      hread.ne_of_kind hk (Stmt.ne_read_of_lastKind hlast)⟩

/-- Statements after a rewrite. -/
theorem laid {part : Part} (hl : Laid g p parent' part ins ns outs ends)
    (hpart : ∀ s ∈ part.stmts, s ∈ ls) (hns : ∀ m ∈ ns, m ∈ g.order) :
    Laid g' q parent' part (ins.map (movedArrival n last)) (ns.flatMap (inPlaceOf n new))
      (outs.map (movedArrival n last)) (ends.map (movedArrival n last)) := by
  have hstmt : ∀ {s st}, s ∈ ls → p.stmts.get? s = some st →
      q.stmts.get? s = some (st.redirect r c) := fun hs hst =>
    (hedit.stmt _ hs).trans (congrArg _ hst)
  have hinside : ∀ {s st}, s ∈ ls → p.stmts.get? s = some st → ∀ t ∈ st.children, t ∈ ls :=
    fun hs hst _ ht => hp.spans.mem_of_mem_children hs hst ht
  induction hl with
  | @block s ss parent' m ns ins outs ends hst hm _ ih =>
    have hs := hpart s (List.mem_singleton_self s)
    rw [List.forall_mem_cons] at hns
    have hmn := hread.ne_of_kind hm fun v => NodeKind.noConfusion
    have hrest := ih (hinside hs hst) hns.2
    rw [List.map_singleton, movedArrival_of_ne hmn] at hrest
    rw [List.flatMap_cons, inPlaceOf_of_ne _ hmn]
    exact .block (hstmt hs hst) (h.sits hm hns.1 hmn) hrest
  | @straight s st parent' ns ins outs ends hst hstraight hh =>
    have hs := hpart s (List.mem_singleton_self s)
    exact .straight (hstmt hs hst) (by rwa [Stmt.isStraight_redirect])
      (h.headed hread hedit hp hc hr hs hst hh hns)
  | @ret s value parent' ns ins outs ends hst hh =>
    have hs := hpart s (List.mem_singleton_self s)
    rw [List.map_append]
    cases value with
    | none => exact .ret (hstmt hs hst) (h.headed hread hedit hp hc hr hs hst hh hns)
    | some e => exact .ret (hstmt hs hst) (h.headed hread hedit hp hc hr hs hst hh hns)
  | @branch s t e' els parent' m k ns ts es ins outs₁ outs₂ ends ends₁ ends₂ hst hh _ _ ih₁ ih₂ =>
    have hs := hpart s (List.mem_singleton_self s)
    obtain ⟨hmn, hkn⟩ := head_ne hread rfl hh
    rw [← List.cons_append, List.forall_mem_append, List.forall_mem_append] at hns
    have hhead := h.headed hread hedit hp hc hr hs hst hh hns.1
    have hthen := ih₁ (fun u hu => hinside hs hst u (by
      rw [List.mem_singleton.1 hu]
      exact List.mem_cons_self)) hns.2.1
    have helse := ih₂ (fun u hu => hinside hs hst u (List.mem_cons_of_mem _ hu)) hns.2.2
    rw [List.flatMap_cons, inPlaceOf_of_ne _ hmn, List.singleton_append, List.map_singleton,
      movedArrival_of_ne hkn] at hhead
    rw [List.map_singleton, movedArrival_of_ne hkn] at hthen helse
    rw [List.flatMap_cons, inPlaceOf_of_ne _ hmn, List.singleton_append, List.flatMap_append,
      List.flatMap_append, List.map_append, List.map_append, List.map_append]
    exact .branch (hstmt hs hst) hhead hthen helse
  | @loop s b e' parent' m k ns bs ins back ends ends₁ hst hh _ ih =>
    have hs := hpart s (List.mem_singleton_self s)
    obtain ⟨hmn, hkn⟩ := head_ne hread rfl hh
    rw [← List.cons_append, List.forall_mem_append] at hns
    have hhead := h.headed hread hedit hp hc hr hs hst hh hns.1
    have hbody := ih (hinside hs hst) hns.2
    rw [List.flatMap_cons, inPlaceOf_of_ne _ hmn, List.singleton_append, List.map_singleton,
      movedArrival_of_ne hkn] at hhead
    rw [List.map_singleton, movedArrival_of_ne hkn] at hbody
    rw [List.flatMap_cons, inPlaceOf_of_ne _ hmn, List.singleton_append, List.flatMap_append,
      List.map_append, List.map_singleton, movedArrival_of_ne hkn]
    exact .loop (hstmt hs hst) hhead hbody
  | nil => exact .nil
  | @cons s ss parent' ns ms ins mid outs ends₁ ends₂ _ _ ih₁ ih₂ =>
    rw [Part.stmts, List.forall_mem_cons] at hpart
    rw [List.forall_mem_append] at hns
    rw [List.flatMap_append, List.map_append]
    exact .cons (ih₁ (fun t ht => List.mem_singleton.1 ht ▸ hpart.1) hns.1) (ih₂ hpart.2 hns.2)

/-- The graph follows the program after a rewrite. -/
theorem laidOut {body : StmtId} (hl : g.LaidOut p body) (hbody : body ∈ ls) :
    g'.LaidOut q body := by
  obtain ⟨ns, k, outs, ends, horder, hlaid, hk⟩ := hl
  have hmem : ∀ m, m ∈ g.order ↔ m ∈ ns ∨ m = k := fun m => by
    rw [horder, List.mem_append, List.mem_singleton]
  have hkn := hread.ne_of_kind hk fun v => NodeKind.noConfusion
  have hlast := h.sits hk ((hmem k).2 (.inr rfl)) hkn
  rw [List.map_append] at hlast
  refine ⟨ns.flatMap (inPlaceOf n new), k, _, _, ?_, h.laid hread hedit hp hc hr hlaid
    (fun s hs => List.mem_singleton.1 hs ▸ hbody) fun m hm => (hmem m).2 (.inl hm), hlast⟩
  rw [h.order, horder, List.flatMap_append, List.flatMap_singleton, inPlaceOf_of_ne _ hkn]

end Graph.Rewritten

end Dataflow
