import Dataflow.Inlining.Analysis
import Dataflow.Proofs.Places
import Dataflow.Proofs.Purity

/-!
# One rewrite

Everything that happens when a read of a variable is replaced by a copy of a value: the
program is edited, the nodes are told, and the graph of the copy takes the place of the node.
None of it fails in a graph that follows a body of a tree program (`Inlined.exists_inlined`).

* `Graph.exists_rewritten`: telling the nodes and splicing the graph of an expression;
* `Inlined`: what the whole rewrite does.
-/

namespace Dataflow

variable {p q : Program} {g g' : Graph} {n : NodeId} {parent : Option NodeId} {r c a : ExprId}
  {ls : List StmtId} {le la lc : List ExprId} {oc : List Operation}

namespace Graph

/-- A node that reads a variable gives its place to the operations of an expression. -/
theorem Spliced.rewritten (hg : g.Linked)
    (h : Spliced (g.retarget r c).2 n (insertedRow parent c oc) g') :
    g.Rewritten n parent r c oc (g.upcoming (insertedRow parent c oc).length)
      ⟨g.nodes.size + ((insertedRow parent c oc).length - 1)⟩ g' := by
  have hsize : (g.retarget r c).2.nodes.size = g.nodes.size := Arena.size_foldl_modify _ _ _
  have harr : ∀ m, (g.retarget r c).2.arrivals m = g.arrivals m := fun _ => rfl
  have hrow : g'.InRow g.nodes.size (insertedRow parent c oc)
      ((g.arrivals n).map (movedArrival n
        ⟨g.nodes.size + ((insertedRow parent c oc).length - 1)⟩)) := by
    constructor
    · intro i node hi
      rw [← hsize, h.new, hi]
    · intro i hi
      rw [← hsize]
      exact h.arrivals_next i hi
    · intro _
      rw [← hsize, ← harr]
      exact h.arrivals_first
  have hspelled := (rowSpells_insertedRow parent c oc).spelled hrow
  rw [rowOuts, if_neg (insertedRow_ne_nil parent c oc)] at hspelled
  constructor
  · exact h.linked
  · rw [h.order, upcoming, upcoming, hsize]
    rfl
  · intro m hm hmn
    rw [h.old m (hsize ▸ hg.allocated m hm), hg.nodes_retarget r c hm]
  · intro m hm hmn
    rw [← hsize, ← harr]
    exact h.arrivals m hm hmn
  · rw [upcoming_eq]
    exact hspelled

/-- Telling the nodes and splicing the graph of an expression that has operations succeeds. -/
theorem Linked.exists_rewritten (hg : g.Linked) (hread : g.ReadsAlone n parent r)
    (hc : q.operations c = (.ok (.ok oc) : Run (Except Error _))) :
    ∃ f g', ofExpr q c = .ok (.ok f) ∧
      (g.retarget r c).2.splice n f =
        (.ok (g.upcoming (insertedRow parent c oc).length), g') ∧
      Spliced (g.retarget r c).2 n (insertedRow parent c oc) g' := by
  obtain ⟨f, hf, hchain⟩ := exists_ofExpr hc
  obtain ⟨g', hsplice, hspliced⟩ := (hg.retarget r c).exists_splice hread.mem hchain
  have hparent : ((g.retarget r c).2.nodes.get? n).bind Node.parent = parent := by
    obtain ⟨v, hv⟩ := hread.node
    rw [hg.nodes_retarget r c hread.mem, hv]
    rfl
  have hsize : (g.retarget r c).2.nodes.size = g.nodes.size := Arena.size_foldl_modify _ _ _
  rw [hparent] at hspliced
  refine ⟨f, g', hf, ?_, hspliced⟩
  rw [hsplice, insertedRow, List.length_map, upcoming, upcoming, hsize]

end Graph

/-- The program `q` and the graph `g'` are what replacing the node `n`, which reads `v`, by a copy
    of the value `a` makes of `p` and `g`. Here `r` is the expression that is read and `c` the
    copy; `ls` and `le` list everything in the bodies of `p`, `la` and `lc` everything inside `a`
    and `c`, and `oc` are the operations of `c`. -/
structure Inlined (p q : Program) (g g' : Graph) (n : NodeId) (parent : Option NodeId) (v : VarId)
    (r c a : ExprId) (ls : List StmtId) (le la lc : List ExprId) (oc : List Operation) :
    Prop where
  alone : g.ReadsAlone n parent r
  node : g.nodes.get? n = some ⟨.read v, .expr r, parent⟩
  var : p.exprs.get? r = some (.var v)
  not_target : ∀ e ∈ le, ∀ x, p.exprs.get? e = some x → r ∉ x.targets
  edited : p.Edited q r c a ls le la lc
  inert : p.Inert la
  emits : Emits q [c] lc oc
  spliced : Graph.Spliced (g.retarget r c).2 n (insertedRow parent c oc) g'

namespace Inlined

variable {v : VarId} {body : StmtId}

theorem laidOut (h : Inlined p q g g' n parent v r c a ls le la lc oc) (hg : g.Linked)
    (hp : p.Lists ls le) (hlaid : g.LaidOut p body) (hbody : body ∈ ls) : g'.LaidOut q body :=
  (h.spliced.rewritten hg).laidOut h.alone h.edited hp h.emits h.not_target hlaid hbody

end Inlined

theorem Program.isOfMethod_eq_ok {v : VarId} {b : Bool} : p.isOfMethod v = .ok b ↔
    ∃ decl, p.vars.get? v = some decl ∧ (b = true ↔ decl.kind ≠ .field) := by
  rw [isOfMethod, Run.bind_eq_ok]
  refine exists_congr fun decl => and_congr Arena.get_eq_ok_iff ?_
  cases decl.kind <;> cases b <;> simp [pure, Except.pure]

/-- A variable of a method is read by naming it, not as a field of an object. -/
theorem Program.IsTree.eq_var (hp : p.IsTree) {v : VarId} (hv : p.isOfMethod v = .ok true)
    {x : Expr} {ins : List ExprId} {own : List Operation} (hx : p.exprs.get? r = some x)
    (hown : p.emits r x = some (ins, own)) (ho : ⟨.read v, r⟩ ∈ own) : x = .var v := by
  obtain ⟨decl, hdecl, hkind⟩ := Program.isOfMethod_eq_ok.1 hv
  obtain ⟨_, ⟨u, hu, rfl | ⟨object, rfl⟩⟩ | ⟨_, _, _, _, hwrite, _⟩ | ⟨_, hboth, _⟩ | ⟨hcall, _⟩⟩ :=
    Program.own_cases hown ho
  · cases hu
    rfl
  · cases hu
    obtain ⟨decl', hdecl', hfield⟩ := hp.fields r object v hx
    rw [hdecl] at hdecl'
    cases hdecl'
    exact absurd hfield (hkind.1 rfl)
  · cases hwrite
  · cases hboth
  · cases hcall

/-- Replacing a node that reads a variable of a method by a copy of an inert value: the statement
    around it is found, one slot is redirected, and the graph of the copy is spliced. -/
theorem Inlined.exists_inlined {v : VarId} {body : StmtId} (hp : p.IsTree) (hl : p.Lists ls le)
    (hbody : body ∈ ls) (hg : g.Linked) (hlaid : g.LaidOut p body) (hn : n ∈ g.order)
    (hnode : g.nodes.get? n = some ⟨.read v, .expr r, parent⟩) (hv : p.isOfMethod v = .ok true)
    (ha : Spans p [a] la) (hinert : p.Inert la) :
    ∃ q g' c lc oc f stmtNode s, g.containingStatement n = .ok (some stmtNode) ∧
      (g.nodes.get? stmtNode).map Node.origin = some (.stmt s) ∧
      (∃ p₁, p.cloneExpr a = .ok (c, p₁) ∧ p₁.replaceExpr s r c = .ok (1, q)) ∧
      Graph.ofExpr q c = .ok (.ok f) ∧
      (g.retarget r c).2.splice n f =
        (.ok (g.upcoming (insertedRow parent c oc).length), g') ∧
      Inlined p q g g' n parent v r c a ls le la lc oc := by
  obtain ⟨s, hs, st, m, around, os, hst, hos, ho, rfl, hm⟩ :=
    hlaid.exists_read hl hbody hn hnode
  obtain ⟨l, hem⟩ := Emits.exists_of_spells hos
  obtain ⟨hrl, x, ins, own, hx, hown, hown'⟩ := hem.exists_of_mem ho
  obtain rfl := hp.eq_var hv hx hown hown'
  obtain ⟨st', inner, all, below, hst', hall, hbelow, hinner, hsub⟩ := hl.spans.exists_sublist hs
  rw [hst] at hst'
  cases hst'
  have hr : r ∈ all := (hem.perm hall).mem_iff.2 (List.mem_append_left _ hrl)
  have hspans : StmtSpans p [s] (s :: inner) (all ++ below) := by
    simpa using StmtSpans.cons hst hall hbelow .nil
  obtain ⟨c, lc, p₁, q, hclone, hreplace, hedit⟩ := hl.exists_edit hspans hinner hsub
    (List.mem_append_left _ hr) hx ha
  have hspansc : Spans q [c] lc := hedit.copies.spans
  obtain ⟨oc, hemc⟩ := hspansc.exists_emits_of_inert (hedit.inert hinert)
  have hoc := spelledBy_one.1 (hemc.spells (hspansc.length_le hedit.nodup))
  have halone := hlaid.readsAlone hl hbody hn hnode
  obtain ⟨f, g', hf, hsplice, hspliced⟩ := hg.exists_rewritten halone hoc
  exact ⟨q, g', c, lc, oc, f, m, s, Graph.containingStatement_eq hnode hm, by rw [hm]; rfl,
    ⟨p₁, hclone, hreplace⟩, hf, hsplice, halone, hnode, hx,
    fun e he y hy => hl.not_target hs hst hem hrl he hy, hedit, hinert, hemc, hspliced⟩

end Dataflow
