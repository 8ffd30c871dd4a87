import Dataflow.Proofs.Acyclic
import Dataflow.Proofs.FragmentCopies
import Dataflow.Proofs.Fragments

/-!
# Expressions alone and in methods

The graph of an expression is a chain, whose last node stands for the expression. The graph of a
method that does nothing but evaluate the expression has the same row of nodes between the node of
the statement and the end of the method, apart from the ways that part before calls there and from
the node that the chain may have to end with.

* `Draft.Consists`: the nodes of a draft;
* `Graph.exists_ofBody_expr`: the graph of a method that evaluates an expression;
* `ofExpr_row_eq_ofBody_row`: the two rows.
-/

namespace Dataflow

/-! ### Rows -/

namespace Node

/-- What a node stands for: its operation, and what it was made from. -/
def meaning (node : Node) : NodeKind × Origin := (node.kind, node.origin)

/-- Whether the way parts at a node, as the call after it may throw. -/
def isParting (node : Node) : Bool :=
  match node.kind with
  | .optionalThrow _ => true
  | _ => false

end Node

/-- A row of nodes without the last one, if that one does nothing. -/
def dropNop (row : List Node) : List Node :=
  if row.getLast?.map Node.kind = some .nop then row.dropLast else row

/-- The nodes of an operation in the graph of a method. -/
def Operation.nodes (parent : Option NodeId) (o : Operation) : List Node :=
  match o.kind with
  | .call e => [⟨.optionalThrow e, .expr o.expr, parent⟩, ⟨o.kind, .expr o.expr, parent⟩]
  | _ => [⟨o.kind, .expr o.expr, parent⟩]

/-- The nodes of an operation where no way parts are those in the graph of an expression. -/
theorem Operation.map_meaning_nodes {parent : Option NodeId} {o : Operation}
    (ho : o.kind.isOperation = true) :
    ((o.nodes parent).filter fun node => !node.isParting).map Node.meaning = [o.node.meaning] := by
  obtain ⟨kind, e⟩ := o
  cases kind <;> first | rfl | cases ho

theorem map_meaning_flatMap_nodes {parent : Option NodeId} {os : List Operation}
    (hos : ∀ o ∈ os, o.kind.isOperation = true) :
    ((os.flatMap (Operation.nodes parent)).filter fun node => !node.isParting).map Node.meaning =
      (os.map Operation.node).map Node.meaning := by
  induction os with
  | nil => rfl
  | cons o os ih =>
    rw [List.forall_mem_cons] at hos
    rw [List.flatMap_cons, List.filter_append, List.map_append, ih hos.2,
      Operation.map_meaning_nodes hos.1]
    rfl

/-- Without the node that it may end with, the row of an expression is that of its operations. -/
theorem dropNop_fragmentRow {e : ExprId} {os : List Operation}
    (hos : ∀ o ∈ os, o.kind.isOperation = true) :
    dropNop (fragmentRow e os) = os.map Operation.node := by
  rw [dropNop, fragmentRow]
  split
  · next hlast =>
    rw [List.append_nil, if_neg]
    intro hnop
    rw [List.getLast?_map, Option.map_map] at hnop
    obtain ⟨o, ho, hkind⟩ := Option.map_eq_some_iff.1 hnop
    have := hos o (List.mem_of_getLast? ho)
    rw [show o.kind = .nop from hkind] at this
    cases this
  · rw [List.getLast?_concat, Option.map_some, if_pos rfl, List.dropLast_concat]

/-- The last node of the row of an expression stands for the expression. -/
theorem origin_getLast?_fragmentRow (e : ExprId) (os : List Operation) :
    (fragmentRow e os).getLast?.map Node.origin = some (.expr e) := by
  rw [fragmentRow]
  split
  · next hlast =>
    obtain ⟨o, ho, rfl⟩ := Option.map_eq_some_iff.1 hlast
    rw [List.append_nil, List.getLast?_map, ho]
    rfl
  · rw [List.getLast?_concat]
    rfl

/-! ### Drafts -/

namespace Draft

/-- The nodes of a draft, in order, and the node around the next one. -/
structure Consists (d : Draft) (row : List Node) (parent : Option NodeId) : Prop where
  order : d.graph.order = d.graph.nodes.handles
  nodes : d.graph.nodes.values = row
  parent : d.parent = parent

namespace Consists

variable {d : Draft} {row : List Node} {parent : Option NodeId}

theorem empty : ({} : Draft).Consists [] none := ⟨rfl, rfl, rfl⟩

theorem add (h : d.Consists row parent) (kind : NodeKind) (origin : Origin) :
    (d.add kind origin).Consists (row ++ [⟨kind, origin, parent⟩]) parent := by
  refine ⟨?_, ?_, h.parent⟩
  · rw [nodes_add, Arena.handles_push, ← h.order]
    exact order_joinTo _ _ _
  · rw [nodes_add, Arena.values_push, h.nodes, h.parent]

theorem addOperation (h : d.Consists row parent) (o : Operation) :
    (d.addOperation true o).Consists (row ++ o.nodes parent) parent := by
  obtain ⟨kind, e⟩ := o
  cases kind with
  | call c =>
    have hfirst := h.add (.optionalThrow c) (.expr e)
    have hsecond := Consists.add (d := { d.add (.optionalThrow c) (.expr e) with
      toEnd := (d.add (.optionalThrow c) (.expr e)).toEnd ++ [(d.next, some .throws)]
      pending := [(d.next, some .noThrow)] }) ⟨hfirst.order, hfirst.nodes, hfirst.parent⟩
      (.call c) (.expr e)
    rw [List.append_assoc] at hsecond
    exact hsecond
  | _ => exact h.add _ (.expr e)

theorem addOperations (h : d.Consists row parent) (os : List Operation) :
    (d.addOperations true os).Consists (row ++ os.flatMap (Operation.nodes parent)) parent := by
  induction os generalizing d row with
  | nil =>
    rw [List.flatMap_nil, List.append_nil]
    exact h
  | cons o os ih =>
    rw [Draft.addOperations, List.foldl_cons, List.flatMap_cons, ← List.append_assoc]
    exact ih (h.addOperation o)

end Consists

end Draft

/-! ### Methods that evaluate an expression -/

/-- The graph of a method that evaluates an expression. -/
theorem Graph.exists_ofBody_expr {p : Program} {e : ExprId} {s : StmtId} {os : List Operation}
    (h : p.operations e = (.ok (.ok os) : Run (Except Error _)))
    (hs : p.stmts.get? s = some (.expr e)) :
    ∃ g, Graph.ofBody p s = .ok (.ok g) ∧ g.order = g.nodes.handles ∧
      g.nodes.values = ⟨.statement, .stmt s, none⟩ ::
        (os.flatMap (Operation.nodes (some ⟨0⟩)) ++ [⟨.finish, .none, none⟩]) := by
  have hstmt : (({} : Draft).enter .statement s).Consists [⟨.statement, .stmt s, none⟩] (some ⟨0⟩) := by
    have := Draft.Consists.empty.add .statement (.stmt s)
    exact ⟨this.order, this.nodes, rfl⟩
  have hrow := hstmt.addOperations os
  have hbody : p.lower s {} = (.ok (.ok { (({} : Draft).enter .statement s).addOperations true os with
      parent := none }) : Run (Except Error Draft)) := by
    rw [Program.lower, Program.stmtDepth, unroll_succ]
    refine Lowered.bind_eq_ok.2 ⟨_, Lowered.get_eq_ok.2 hs, ?_⟩
    exact Lowered.bind_eq_ok.2 ⟨_, Lowered.bind_eq_ok.2 ⟨os, h, rfl⟩, rfl⟩
  have hall := Draft.Consists.add (d := { (({} : Draft).enter .statement s).addOperations true os with
    parent := none }) ⟨hrow.order, hrow.nodes, rfl⟩ .finish .none
  refine ⟨_, Lowered.bind_eq_ok.2 ⟨_, hbody, rfl⟩, ?_, ?_⟩
  · refine (Draft.order_joinTo _ _ _).trans (hall.order.trans ?_)
    exact congrArg Arena.handles (Draft.nodes_joinTo _ _ _).symm
  · refine (congrArg Arena.values (Draft.nodes_joinTo _ _ _)).trans (hall.nodes.trans ?_)
    rw [List.append_assoc]
    rfl

/-- The operations of an expression depend on the expressions of a program only. -/
theorem Program.operations_congr {p q : Program} (h : q.exprs = p.exprs) (e : ExprId) :
    q.operations e = p.operations e := by
  have hstep : q.operationsStep = p.operationsStep := by
    funext self e
    simp only [operationsStep, targetOperations, h]
  rw [operations, operations, hstep, exprDepth, exprDepth, h]

/-- The graph of an expression without cycles, which assigns to variables and fields only, is a
    chain that ends with a node for the expression. A method whose body evaluates the expression and
    does nothing else has the same row of nodes, but for a last node of the chain that does nothing
    and for nodes of the method at which the way parts. -/
theorem ofExpr_row_eq_ofBody_row {p : Program} {e : ExprId} (he : p.Acyclic (.expr e))
    (hplaces : p.AssignsPlaces (.expr e)) :
    ∃ f, Graph.ofExpr p e = .ok (.ok f) ∧ f.IsChain f.nodes.values ∧
      f.nodes.values.getLast?.map Node.origin = some (.expr e) ∧
      ∀ q s, q.exprs = p.exprs → q.stmts.get? s = some (.expr e) →
        ∃ g first row last, Graph.ofBody q s = .ok (.ok g) ∧ g.order = g.nodes.handles ∧
          g.nodes.values = first :: (row ++ [last]) ∧ first.meaning = (.statement, .stmt s) ∧
          last.meaning = (.finish, .none) ∧
          (row.filter fun node => !node.isParting).map Node.meaning =
            (dropNop f.nodes.values).map Node.meaning := by
  obtain ⟨os, hos⟩ := he.exists_operations hplaces
  obtain ⟨f, hf, hchain⟩ := Graph.exists_ofExpr hos
  obtain ⟨l, hem⟩ := Emits.exists_of_operations hos
  have hops := hem.isOperation
  have hrow : f.IsChain f.nodes.values := by
    rw [hchain.nodes]
    exact hchain
  refine ⟨f, hf, hrow, ?_, fun q s hexprs hs => ?_⟩
  · rw [hchain.nodes, origin_getLast?_fragmentRow]
  · obtain ⟨g, hg, horder, hnodes⟩ :=
      Graph.exists_ofBody_expr ((Program.operations_congr hexprs e).trans hos) hs
    refine ⟨g, _, _, _, hg, horder, hnodes, rfl, rfl, ?_⟩
    rw [map_meaning_flatMap_nodes hops, hchain.nodes, dropNop_fragmentRow hops]

/-- A sum both of whose operands are one assignment of what a call returns. -/
def sampleShared : Program where
  vars := ⟨#[{ name := "x", type := .int, kind := .ofMethod }]⟩
  methods := ⟨#[{ name := "roll", returns := .int, params := [], isPure := false, body := none }]⟩
  exprs := ⟨#[.var ⟨0⟩, .call ⟨0⟩ none [], .assign ⟨0⟩ ⟨1⟩, .binary .add ⟨2⟩ ⟨2⟩]⟩
  stmts := ⟨#[.expr ⟨3⟩]⟩

theorem ofExpr_row_eq_ofBody_row_shared : sampleShared.Acyclic (.expr ⟨3⟩) ∧
    ∃ f g first row last, Graph.ofExpr sampleShared ⟨3⟩ = .ok (.ok f) ∧
      Graph.ofBody sampleShared ⟨0⟩ = .ok (.ok g) ∧ g.nodes.values = first :: (row ++ [last]) ∧
      (row.filter fun node => !node.isParting).map Node.meaning =
        (dropNop f.nodes.values).map Node.meaning := by
  obtain ⟨he, hplaces⟩ := Program.acyclic_of_check
    (show sampleShared.checksAcyclic 5 (.expr ⟨3⟩) = true by decide)
  obtain ⟨f, hf, _, _, hbody⟩ := ofExpr_row_eq_ofBody_row he hplaces
  obtain ⟨g, first, row, last, hg, _, hnodes, _, _, hrow⟩ := hbody sampleShared ⟨0⟩ rfl rfl
  exact ⟨he, f, g, first, row, last, hf, hg, hnodes, hrow⟩

end Dataflow
