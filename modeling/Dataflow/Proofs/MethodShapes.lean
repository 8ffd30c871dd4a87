import Dataflow.Proofs.Acyclic
import Dataflow.Proofs.Departures
import Dataflow.Proofs.FragmentCopies
import Dataflow.Proofs.Places

/-!
# The shape of method graphs

The graph of a body starts at its first node and ends at its last one, and how the control leaves
a node is told by its kind. Every node that is made for an expression, a branch or a jump belongs to
the statement whose node comes last before it.

* `Graph.Operates`: in the graph of a body no node stands for an expression alone;
* `Owner`, `Laid.exists_owner`: the statement that a node is made for;
* `Graph.Departs`, `Graph.LaidOut.departs`: how the control leaves a node;
* `MethodShape`, `ofBody_methodShape`: what the graph of a body looks like, and when there is one.
-/

namespace Dataflow

/-! ### Nodes for an expression alone -/

/-- No node stands for an expression alone. -/
def Graph.Operates (g : Graph) : Prop := ∀ node ∈ g.nodes.values, node.kind ≠ .nop

theorem Graph.keeps_operates : Draft.Keeps Operates where
  node node hkind h other hother := by
    rw [addNode, Arena.values_push] at hother
    rcases List.mem_append.1 hother with hother | hother
    · exact h other hother
    · rw [List.mem_singleton.1 hother]
      exact hkind
  edge _ _ _ h := h
  ends _ _ h := h

/-- In the graph of a body no node stands for an expression alone. -/
theorem Graph.kind_ne_nop_of_ofBody {p : Program} {body : StmtId} {g : Graph}
    (h : ofBody p body = .ok (.ok g)) {n : NodeId} {node : Node}
    (hn : g.nodes.get? n = some node) : node.kind ≠ .nop := by
  have hall : g.Operates := keeps_operates.ofBody h fun node hnode => absurd hnode List.not_mem_nil
  rw [Arena.get?_eq_getElem?] at hn
  exact hall node (List.mem_of_getElem? hn)

/-! ### Owners -/

/-- Whether a node is that of a block, of a statement as a whole or of the end of a method. -/
def NodeKind.isFrame : NodeKind → Bool
  | block | statement | finish => true
  | _ => false

/-- A node is made for what a statement does last, or for something in its own expressions. -/
def Program.Makes (p : Program) (s : StmtId) (st : Stmt) (node : Node) : Prop :=
  (node.origin = .stmt s ∧ st.lastKind = some node.kind) ∨
    ∃ o ∈ st.exprs, ∃ e, node.origin = .expr e ∧ p.Inside (.expr o) (.expr e)

/-- The node `k` is that of a statement `s`, and `n` is one of the nodes after it that are made
    for the statement itself. -/
structure Owner (g : Graph) (p : Program) (ns : List NodeId) (n : NodeId) (node : Node) (k : NodeId)
    (s : StmtId) : Prop where
  statement : ∃ around, g.nodes.get? k = some ⟨.statement, .stmt s, around⟩
  makes : ∃ st, p.stmts.get? s = some st ∧ p.Makes s st node
  place : ∃ before mid after, ns = before ++ k :: (mid ++ n :: after) ∧
    ∀ m ∈ mid, ∃ other, g.nodes.get? m = some other ∧ other.kind.isFrame = false

section Owners

variable {g : Graph} {p : Program} {parent : Option NodeId} {ins outs ends back : List OpenEdge}
  {ns : List NodeId} {s : StmtId} {st : Stmt} {n : NodeId}

/-- Where the way parts in a row, the call stands right after. -/
theorem Spelled.exists_call {os : List Operation} {e : ExprId} {origin : Origin}
    {around : Option NodeId} (h : Spelled g parent os ins ns outs ends)
    (hos : ∀ o ∈ os, o.kind.isOperation = true) (hn : n ∈ ns)
    (hnode : g.nodes.get? n = some ⟨.optionalThrow e, origin, around⟩) :
    ∃ before m after x, ns = before ++ n :: m :: after ∧ origin = .expr x ∧ ⟨.call e, x⟩ ∈ os ∧
      Sits g m (.call e) origin around [(n, some .noThrow)] := by
  induction h with
  | nil => cases hn
  | @op o os k ns ins outs ends hk _ ih =>
    rw [List.forall_mem_cons] at hos
    rcases List.mem_cons.1 hn with rfl | hn
    · have hkind : o.kind = .optionalThrow e :=
        congrArg Node.kind (Option.some.inj (hk.node.symm.trans hnode))
      rw [hkind] at hos
      cases hos.1
    · obtain ⟨before, m, after, x, rfl, hx, hop, hm⟩ := ih hos.2 hn
      exact ⟨k :: before, m, after, x, rfl, hx, List.mem_cons_of_mem _ hop, hm⟩
  | @call o call os k m ns ins outs ends ho hk hm _ ih =>
    rw [List.forall_mem_cons] at hos
    rcases List.mem_cons.1 hn with rfl | hn
    · cases hk.node.symm.trans hnode
      exact ⟨[], m, ns, o.expr, rfl, rfl, ho ▸ List.mem_cons_self, hm⟩
    · rcases List.mem_cons.1 hn with rfl | hn
      · cases hm.node.symm.trans hnode
      · obtain ⟨before, m', after, x, rfl, hx, hop, hm'⟩ := ih hos.2 hn
        exact ⟨k :: m :: before, m', after, x, rfl, hx, List.mem_cons_of_mem _ hop, hm'⟩
  | @nop x os k ns ins outs ends hk _ ih =>
    rcases List.mem_cons.1 hn with rfl | hn
    · cases hk.node.symm.trans hnode
    · obtain ⟨before, m, after, x, rfl, hx, hop, hm⟩ := ih hos hn
      exact ⟨k :: before, m, after, x, rfl, hx, hop, hm⟩

/-- The nodes of a statement after its own one are made for the statement itself. -/
theorem Headed.exists_owned {own : List ExprId} (h : Headed g p parent s st back ins ns outs ends)
    (hown : Spans p st.exprs own)
    (hnop : ∀ n node, g.nodes.get? n = some node → node.kind ≠ .nop) :
    ∃ k row, ns = k :: row ∧ Sits g k .statement (.stmt s) parent ins ∧
      ∀ n ∈ row, ∃ node, g.nodes.get? n = some node ∧ node.parent = some k ∧
        node.kind.isFrame = false ∧ p.Makes s st node := by
  obtain ⟨k, os, row, mid, hk, hos, hrow, hlast⟩ := h.exists_spelled
  obtain ⟨l, hem⟩ := Emits.exists_of_spells hos
  have hinside : ∀ o ∈ os, ∃ e ∈ st.exprs, p.Inside (.expr e) (.expr o.expr) := fun o ho =>
    hown.exists_inside
      ((hem.perm hown).mem_iff.2 (List.mem_append_left _ (hem.exists_of_mem ho).1))
  have hall : ∀ n ∈ row, ∃ node, g.nodes.get? n = some node ∧ node.parent = some k ∧
      node.kind.isFrame = false ∧ p.Makes s st node := by
    intro n hn
    obtain ⟨kind, e, hnode, hop | ⟨call, rfl⟩ | rfl⟩ := hrow.exists_of_mem hn
    · obtain ⟨o, ho, hin⟩ := hinside _ hop
      have hkind := hem.isOperation _ hop
      refine ⟨_, hnode, rfl, ?_, .inr ⟨o, ho, e, rfl, hin⟩⟩
      cases kind <;> first | rfl | cases hkind
    · obtain ⟨_, _, _, x, _, hx, hop, _⟩ := hrow.exists_call hem.isOperation hn hnode
      obtain ⟨o, ho, hin⟩ := hinside _ hop
      exact ⟨_, hnode, rfl, rfl, .inr ⟨o, ho, x, hx, hin⟩⟩
    · exact absurd rfl (hnop n _ hnode)
  rcases hlast with ⟨_, rfl, _⟩ | ⟨kind, m, hlast, rfl, hm, _⟩
  · exact ⟨k, row, rfl, hk, hall⟩
  · refine ⟨k, row ++ [m], rfl, hk, List.forall_mem_append.2 ⟨hall, List.forall_mem_singleton.2 ?_⟩⟩
    refine ⟨_, hm.node, rfl, ?_, .inl ⟨rfl, hlast⟩⟩
    obtain ⟨_, _, rfl⟩ | ⟨_, rfl⟩ | rfl := Stmt.lastKind_cases hlast
    all_goals rfl

theorem Owner.append {node : Node} {k : NodeId} (h : Owner g p ns n node k s) (ms : List NodeId) :
    Owner g p (ns ++ ms) n node k s where
  statement := h.statement
  makes := h.makes
  place := by
    obtain ⟨before, mid, after, rfl, hmid⟩ := h.place
    exact ⟨before, mid, after ++ ms, by simp, hmid⟩

namespace Laid

variable {part : Part} {ss ls : List StmtId} {le : List ExprId} {node : Node}
  (h : Laid g p parent part ins ns outs ends) (hp : StmtSpans p ss ls le)
  (hpart : ∀ s ∈ part.stmts, s ∈ ls)
  (hnop : ∀ n node, g.nodes.get? n = some node → node.kind ≠ .nop) (hn : n ∈ ns)
  (hnode : g.nodes.get? n = some node)
include h hp hpart hnop hn hnode

/-- Every node of a body is that of a block or of a statement, or it has an owner. -/
theorem kind_or_owner : node.kind = .block ∨ node.kind = .statement ∨
    (node.kind.isFrame = false ∧ ∃ k s, s ∈ ls ∧ node.parent = some k ∧ Owner g p ns n node k s) := by
  rcases h.inHead hpart (fun s hs st hst t ht => hp.mem_of_mem_children hs hst ht) hn
    with ⟨node', hnode', hkind⟩ | hin
  · cases hnode.symm.trans hnode'
    exact .inl hkind
  obtain ⟨s, st, before, row, after, around, _, _, _, _, hs, hst, hh, rfl, hmem⟩ := hin
  obtain ⟨st', _, own, _, hst', hown, _⟩ := hp.exists_sublist hs
  cases hst.symm.trans hst'
  obtain ⟨k, row, rfl, hk, hall⟩ := hh.exists_owned hown hnop
  rcases List.mem_cons.1 hmem with rfl | hmem
  · cases hk.node.symm.trans hnode
    exact .inr (.inl rfl)
  · obtain ⟨node', hnode', hparent, hframe, hmakes⟩ := hall n hmem
    cases hnode.symm.trans hnode'
    obtain ⟨mid, rest, rfl⟩ := List.append_of_mem hmem
    refine .inr (.inr ⟨hframe, k, s, hs, hparent, ⟨around, hk.node⟩, ⟨st, hst, hmakes⟩,
      before, mid, rest ++ after, by simp, fun m hm => ?_⟩)
    obtain ⟨other, hother, _, hframe', _⟩ := hall m (List.mem_append_left _ hm)
    exact ⟨other, hother, hframe'⟩

theorem kind_ne_finish : node.kind ≠ .finish := by
  intro hfinish
  rcases h.kind_or_owner hp hpart hnop hn hnode with hkind | hkind | ⟨hframe, _⟩
  · cases hfinish.symm.trans hkind
  · cases hfinish.symm.trans hkind
  · rw [hfinish] at hframe
    cases hframe

theorem exists_owner (hframe : node.kind.isFrame = false) :
    ∃ k s, s ∈ ls ∧ node.parent = some k ∧ Owner g p ns n node k s := by
  rcases h.kind_or_owner hp hpart hnop hn hnode with hkind | hkind | ⟨_, howner⟩
  · rw [hkind] at hframe
    cases hframe
  · rw [hkind] at hframe
    cases hframe
  · exact howner

end Laid

theorem Laid.exists_first (h : Laid g p parent (.stmt s) ins ns outs ends) :
    ∃ n rest, ns = n :: rest ∧ g.arrivals n = ins := by
  cases h with
  | block _ hn => exact ⟨_, _, rfl, hn.arrivals⟩
  | straight _ _ hh | ret _ hh =>
    obtain ⟨k, _, _, _, hk, _, _, ⟨_, rfl, _⟩ | ⟨_, _, _, rfl, _⟩⟩ := hh.exists_spelled
    · exact ⟨k, _, rfl, hk.arrivals⟩
    · exact ⟨k, _, rfl, hk.arrivals⟩
  | branch _ hh | loop _ hh =>
    obtain ⟨_, _, _, _, _, hns, _, hk, _⟩ := hh.exists_last rfl
    cases hns
    exact ⟨_, _, rfl, hk.arrivals⟩

end Owners

/-! ### Shapes -/

/-- How the control leaves a node of a method, by its kind. -/
def Graph.Departs (g : Graph) (n : NodeId) : NodeKind → Prop
  | .conditional _ => ∃ a b s t, (g.outEdges.get n).Perm [a, b] ∧
    g.JoinsBy a n s (some .thenBranch) ∧ g.JoinsBy b n t (some .elseBranch)
  | .optionalThrow e => ∃ a b next last, (g.outEdges.get n).Perm [a, b] ∧
    g.JoinsBy a n next (some .noThrow) ∧ g.JoinsBy b n last (some .throws) ∧ g.exit = some last ∧
    (∃ before after, g.order = before ++ n :: next :: after) ∧
    ∃ node, g.nodes.get? next = some node ∧ node.kind = .call e
  | .goto => ∃ a last, g.outEdges.get n = [a] ∧ g.JoinsBy a n last none ∧ g.exit = some last
  | .finish => g.outEdges.get n = []
  | _ => ∃ a t, g.outEdges.get n = [a] ∧ g.JoinsBy a n t none

/-- The graph of a method that follows a body. -/
structure MethodShape (g : Graph) (p : Program) (body : StmtId) : Prop where
  verified : g.verify = .ok ()
  first : ∃ n rest, g.order = n :: rest ∧ g.entry = some n ∧ g.inEdges.get n = []
  last : ∃ before n, g.order = before ++ [n] ∧ g.exit = some n ∧
    ∀ m ∈ g.order, (∃ node, g.nodes.get? m = some node ∧ node.kind = .finish) ↔ m = n
  departs : ∀ n ∈ g.order, ∃ node, g.nodes.get? n = some node ∧ g.Departs n node.kind
  owner : ∀ n ∈ g.order, ∀ node, g.nodes.get? n = some node → node.kind.isFrame = false →
    ∃ k s, g.containingStatement n = .ok (some k) ∧ p.Inside (.stmt body) (.stmt s) ∧
      Owner g p g.order n node k s

namespace Graph.LaidOut

variable {g : Graph} {p : Program} {body : StmtId} {ss ls : List StmtId} {le : List ExprId}
  {n : NodeId}

/-- Where the way parts in a method, the call stands right after. -/
theorem exists_call (h : g.LaidOut p body) (hp : StmtSpans p ss ls le) (hbody : body ∈ ls)
    (hn : n ∈ g.order) {e : ExprId} {origin : Origin} {around : Option NodeId}
    (hnode : g.nodes.get? n = some ⟨.optionalThrow e, origin, around⟩) :
    ∃ before m after, g.order = before ++ n :: m :: after ∧
      Sits g m (.call e) origin around [(n, some .noThrow)] := by
  rcases h.inHead hp hbody hn with ⟨node, hnode', hkind⟩ | hin
  · cases hnode.symm.trans hnode'
    rcases hkind with hkind | hkind <;> cases hkind
  obtain ⟨s, st, before, row, after, _, _, _, _, _, _, _, hh, horder, hmem⟩ := hin
  obtain ⟨k, os, ns, mid, hk, hos, hrow, hlast⟩ := hh.exists_spelled
  obtain ⟨l, hem⟩ := Emits.exists_of_spells hos
  have hplace : ∃ tail, row = k :: (ns ++ tail) ∧ n ∈ k :: ns := by
    rcases hlast with ⟨_, rfl, _⟩ | ⟨kind, m, hlast, rfl, hm, _⟩
    · exact ⟨[], by rw [List.append_nil], hmem⟩
    · refine ⟨[m], rfl, ?_⟩
      rw [← List.cons_append] at hmem
      refine (List.mem_append.1 hmem).resolve_right fun hmem => ?_
      rw [List.mem_singleton.1 hmem] at hnode
      cases hm.node.symm.trans hnode
      obtain ⟨_, _, hkind⟩ | ⟨_, hkind⟩ | hkind := Stmt.lastKind_cases hlast <;> cases hkind
  obtain ⟨tail, rfl, hkns⟩ := hplace
  have hns : n ∈ ns := by
    refine (List.mem_cons.1 hkns).resolve_left ?_
    rintro rfl
    cases hk.node.symm.trans hnode
  obtain ⟨before', m, after', x, rfl, _, _, hm⟩ := hrow.exists_call hem.isOperation hns hnode
  exact ⟨before ++ k :: before', m, after' ++ (tail ++ after), by rw [horder]; simp, hm⟩

theorem departs (h : g.LaidOut p body) (hg : g.Wired) (hexit : g.exit = g.order.getLast?)
    (hp : StmtSpans p ss ls le) (hbody : body ∈ ls) (hn : n ∈ g.order) {node : Node}
    (hnode : g.nodes.get? n = some node) : g.Departs n node.kind := by
  obtain ⟨es, hes, hall⟩ := hg.exists_outEdges (h.departures_perm hg hn)
  rw [Graph.exits, hnode] at hall
  obtain ⟨kind, origin, around⟩ := node
  cases kind with
  | conditional c =>
    obtain ⟨⟩ | ⟨⟨s, ha⟩, ⟨⟩ | ⟨⟨t, hb⟩, ⟨⟩⟩⟩ := hall
    exact ⟨_, _, s, t, hes, ha, hb⟩
  | optionalThrow e =>
    obtain ⟨⟩ | ⟨⟨s, ha⟩, ⟨⟩ | ⟨⟨t, hb⟩, ⟨⟩⟩⟩ := hall
    obtain ⟨before, m, after, horder, hm⟩ := h.exists_call hp hbody hn hnode
    -- The call is entered by an edge from here, and only one of the two has its label.
    obtain ⟨e', he'⟩ := hg.mem_arrivals.1 (hm.arrivals ▸ List.mem_singleton_self _)
    have hs : s = m := by
      have hmem := hes.mem_iff.1 ((hg.mem_outEdges n e').2 ⟨m, _, he'⟩)
      rcases List.mem_cons.1 hmem with rfl | hmem
      · cases ha.symm.trans he'
        rfl
      · rw [List.mem_singleton.1 hmem] at he'
        cases hb.symm.trans he'
    refine ⟨_, _, s, t, hes, ha, hb, ?_, ⟨before, after, hs ▸ horder⟩, _, hs ▸ hm.node, rfl⟩
    exact hexit.trans (h.target_of_not_internal hg hb fun hin => hin.1 rfl)
  | goto =>
    obtain ⟨⟩ | ⟨⟨t, ha⟩, ⟨⟩⟩ := hall
    refine ⟨_, t, List.perm_singleton.1 hes, ha, ?_⟩
    exact hexit.trans (h.target_of_not_internal hg ha fun hin => hin.2 _ hnode rfl)
  | finish =>
    obtain ⟨⟩ := hall
    exact List.perm_nil.1 hes
  | _ =>
    obtain ⟨⟩ | ⟨⟨t, ha⟩, ⟨⟩⟩ := hall
    exact ⟨_, t, List.perm_singleton.1 hes, ha⟩

end Graph.LaidOut

/-- The graph of a body has the shape of a method. -/
theorem Graph.methodShape_of_ofBody {g : Graph} {p : Program} {body : StmtId} {ls : List StmtId}
    {le : List ExprId} (h : ofBody p body = .ok (.ok g)) (hp : StmtSpans p [body] ls le) :
    MethodShape g p body := by
  have hbody : body ∈ ls := hp.mem_of_mem_roots (List.mem_singleton_self body)
  have hnop : ∀ n node, g.nodes.get? n = some node → node.kind ≠ .nop :=
    fun _ _ => kind_ne_nop_of_ofBody h
  obtain ⟨hlinked, hlaidOut⟩ := ofBody_laidOut h
  obtain ⟨hentry, hexit⟩ := ofBody_ends h
  have hwired := hlinked.toWired
  obtain ⟨ns, last, outs, ends, horder, hlaid, hlast⟩ := id hlaidOut
  have hpart : ∀ s ∈ (Part.stmt body).stmts, s ∈ ls := fun s hs => List.mem_singleton.1 hs ▸ hbody
  refine ⟨hlinked.verify_eq, ?_, ⟨ns, last, horder, ?_, fun m hm => ⟨?_, ?_⟩⟩, fun n hn => ?_,
    fun n hn node hnode hframe => ?_⟩
  · obtain ⟨n, rest, rfl, harr⟩ := hlaid.exists_first
    refine ⟨n, rest ++ [last], horder, ?_, hwired.arrivals_eq_nil_iff.1 harr⟩
    rw [hentry, horder]
    rfl
  · rw [hexit, horder, List.getLast?_concat]
  · rintro ⟨node, hnode, hkind⟩
    rw [horder] at hm
    exact List.mem_singleton.1 ((List.mem_append.1 hm).resolve_left fun hm =>
      hlaid.kind_ne_finish hp hpart hnop hm hnode hkind)
  · rintro rfl
    exact ⟨_, hlast.node, rfl⟩
  · obtain ⟨node, hnode⟩ := Arena.exists_get?_of_lt (hlinked.allocated n hn)
    exact ⟨node, hnode, hlaidOut.departs hwired hexit hp hbody hn hnode⟩
  · have hns : n ∈ ns := by
      rw [horder] at hn
      refine (List.mem_append.1 hn).resolve_right fun hn => ?_
      rw [List.mem_singleton.1 hn] at hnode
      cases hlast.node.symm.trans hnode
      cases hframe
    obtain ⟨k, s, hs, hparent, howner⟩ := hlaid.exists_owner hp hpart hnop hns hnode hframe
    obtain ⟨around, hk⟩ := howner.statement
    obtain ⟨_, hroot, hin⟩ := hp.exists_inside hs
    rw [List.mem_singleton.1 hroot] at hin
    refine ⟨k, s, containingStatement_of_parent hnode ?_ hparent hk, hin, ?_⟩
    · intro hkind
      rw [hkind] at hframe
      cases hframe
    · rw [horder]
      exact howner.append _

/-- The graph of a body without cycles is made just if all its assignments are to variables and
    fields. It has the shape of a method then, and otherwise one of the targets is to blame. -/
theorem ofBody_methodShape {p : Program} {body : StmtId} (h : p.Acyclic (.stmt body)) :
    ((∃ g, Graph.ofBody p body = .ok (.ok g)) ↔ p.AssignsPlaces (.stmt body)) ∧
      (¬p.AssignsPlaces (.stmt body) →
        ∃ target, Graph.ofBody p body = .ok (.error (.badTarget target))) ∧
      ∀ g, Graph.ofBody p body = .ok (.ok g) → MethodShape g p body := by
  refine ⟨h.exists_ofBody_iff, fun hplaces => ?_, fun g hg => ?_⟩
  · rcases h.ofBody_answers with hg | ⟨_, _, _, target, _, _, _, _, _, herror⟩
    · exact absurd (h.exists_ofBody_iff.1 hg) hplaces
    · exact ⟨target, herror⟩
  · obtain ⟨ls, le, hspans⟩ := h.exists_stmtSpans
    exact Graph.methodShape_of_ofBody hg hspans

/-- A loop that rolls until it hits six, and a statement that is never come to. -/
def sampleRolls : Program where
  vars := ⟨#[{ name := "x", type := .int, kind := .ofMethod }]⟩
  methods := ⟨#[{ name := "roll", returns := .int, params := [], isPure := false, body := none }]⟩
  exprs := ⟨#[.bool true, .var ⟨0⟩, .call ⟨0⟩ none [], .assign ⟨1⟩ ⟨2⟩, .int 6, .binary .eq ⟨1⟩ ⟨4⟩]⟩
  stmts := ⟨#[.expr ⟨3⟩, .ret none, .branch ⟨5⟩ ⟨1⟩ none, .block [⟨0⟩, ⟨2⟩], .loop ⟨0⟩ ⟨3⟩,
    .ret (some ⟨1⟩), .block [⟨4⟩, ⟨5⟩, ⟨0⟩]]⟩

theorem ofBody_methodShape_rolls : sampleRolls.Acyclic (.stmt ⟨6⟩) ∧
    ∃ g, Graph.ofBody sampleRolls ⟨6⟩ = .ok (.ok g) ∧ MethodShape g sampleRolls ⟨6⟩ := by
  obtain ⟨h, hplaces⟩ := Program.acyclic_of_check
    (show sampleRolls.checksAcyclic 12 (.stmt ⟨6⟩) = true by decide)
  obtain ⟨hiff, _, hshape⟩ := ofBody_methodShape h
  obtain ⟨g, hg⟩ := hiff.2 hplaces
  exact ⟨h, g, hg, hshape g hg⟩

end Dataflow
