import Dataflow.Proofs.Operations
import Dataflow.Proofs.Splicing

/-!
# Graphs of expressions

The graph of an expression is a chain of its operations. Where the last of them is not that
of the expression itself, a node that stands for it comes after them.

* `fragmentRow`: the nodes of the chain;
* `Graph.exists_ofExpr`: the graph of an expression that has operations.
-/

namespace Dataflow

/-- The node of an operation in the graph of an expression. -/
def Operation.node (o : Operation) : Node := ⟨o.kind, .expr o.expr, none⟩

/-- The nodes in the graph of an expression with the operations `os`. -/
def fragmentRow (e : ExprId) (os : List Operation) : List Node :=
  os.map Operation.node ++
    if os.getLast?.map Operation.expr = some e then [] else [⟨.nop, .expr e, none⟩]

theorem fragmentRow_ne_nil (e : ExprId) (os : List Operation) : fragmentRow e os ≠ [] := by
  intro h
  obtain ⟨hos, hlast⟩ := List.append_eq_nil_iff.1 h
  rw [List.map_eq_nil_iff.1 hos] at hlast
  cases hlast

theorem parent_of_mem_fragmentRow {e : ExprId} {os : List Operation} {node : Node}
    (h : node ∈ fragmentRow e os) : node.parent = none := by
  rcases List.mem_append.1 h with h | h
  · obtain ⟨o, _, rfl⟩ := List.mem_map.1 h
    rfl
  · split at h
    · cases h
    · rw [List.mem_singleton.1 h]

namespace Draft

/-- A draft that is a chain of nodes so far, with the edge out of the last one pending. -/
structure Strung (row : List Node) (d : Draft) : Prop where
  parent : d.parent = none
  order : d.graph.order = (List.range row.length).map Handle.mk
  nodes : d.graph.nodes.values = row
  edges : d.graph.edges.values =
    (List.range (row.length - 1)).map fun i => ⟨some ⟨i⟩, some ⟨i + 1⟩, none⟩
  inPorts : d.graph.inPorts = []
  outPorts : d.graph.outPorts = []
  entry : d.graph.entry = if row = [] then none else some ⟨0⟩
  pending : d.pending = if row = [] then [] else [(⟨row.length - 1⟩, none)]

theorem Strung.add {row : List Node} {d : Draft} (h : d.Strung row) (kind : NodeKind)
    (origin : Origin) : (d.add kind origin).Strung (row ++ [⟨kind, origin, none⟩]) := by
  have hsize : d.graph.nodes.size = row.length := by
    rw [← h.nodes, Arena.values, Array.length_toList]
    rfl
  have hnext : d.next = ⟨row.length⟩ := Handle.index_inj.1 hsize
  have hlen : (row ++ [(⟨kind, origin, none⟩ : Node)]).length = row.length + 1 := by simp
  have hne : row ++ [(⟨kind, origin, none⟩ : Node)] ≠ [] := by simp
  have horder : d.graph.order ++ [d.next] = (List.range (row.length + 1)).map Handle.mk := by
    rw [h.order, hnext, List.range_succ, List.map_append]
    rfl
  have hnodes : (d.graph.nodes.push ⟨kind, origin, d.parent⟩).values =
      row ++ [⟨kind, origin, none⟩] := by
    rw [← h.nodes, h.parent, Arena.values, Arena.values, Arena.push, Array.toList_push]
  -- The first node is not entered, and any other one from the node before it.
  cases row with
  | nil =>
    have hadd : (d.add kind origin).graph = { d.graph.addNode ⟨kind, origin, d.parent⟩ with
        entry := d.graph.entry.or (some d.next) } := by
      rw [Draft.add, h.pending]
      rfl
    rw [List.length_nil] at horder hnext
    exact {
      parent := h.parent
      order := by rw [hadd, hlen]; exact horder
      nodes := by rw [hadd]; exact hnodes
      edges := by rw [hadd]; exact h.edges
      inPorts := by rw [hadd]; exact h.inPorts
      outPorts := by rw [hadd]; exact h.outPorts
      entry := by rw [hadd, if_neg hne, ← hnext]; simp [h.entry]
      pending := by rw [if_neg hne, hlen, Nat.add_sub_cancel, List.length_nil, ← hnext]; rfl }
  | cons node row =>
    have hadd : (d.add kind origin).graph = ({ d.graph.addNode ⟨kind, origin, d.parent⟩ with
        entry := d.graph.entry.or (some d.next) } : Graph).addEdge ⟨row.length⟩ d.next none := by
      rw [Draft.add, h.pending]
      rfl
    exact {
      parent := h.parent
      order := by rw [hadd, hlen]; exact horder
      nodes := by rw [hadd]; exact hnodes
      edges := by
        have hrange : (List.range row.length).map
            (fun i => (⟨some ⟨i⟩, some ⟨i + 1⟩, none⟩ : Edge)) = d.graph.edges.values := h.edges.symm
        rw [hadd, hlen, Nat.add_sub_cancel, List.length_cons, List.range_succ, List.map_append,
          hrange, hnext]
        exact Array.toList_push
      inPorts := by rw [hadd]; exact h.inPorts
      outPorts := by rw [hadd]; exact h.outPorts
      entry := by rw [hadd, if_neg hne]; simp [Graph.addEdge, h.entry]
      pending := by rw [if_neg hne, hlen, Nat.add_sub_cancel, ← hnext]; rfl }

theorem addOperation_false (d : Draft) (o : Operation) :
    d.addOperation false o = d.add o.kind (.expr o.expr) := by
  rw [addOperation]
  split <;> simp_all

theorem Strung.addOperations {row : List Node} {d : Draft} (h : d.Strung row)
    (os : List Operation) :
    (d.addOperations false os).Strung (row ++ os.map Operation.node) := by
  induction os generalizing d row with
  | nil =>
    rw [List.map_nil, List.append_nil]
    exact h
  | cons o os ih =>
    have := ih (h.add o.kind (.expr o.expr))
    rw [List.append_assoc] at this
    rw [Draft.addOperations, List.foldl_cons, addOperation_false]
    exact this

theorem strung_empty : ({} : Draft).Strung [] :=
  ⟨rfl, rfl, rfl, rfl, rfl, rfl, rfl, rfl⟩

end Draft

/-- The graph of an expression that has operations is the chain of these. -/
theorem Graph.exists_ofExpr {p : Program} {e : ExprId} {os : List Operation}
    (h : p.operations e = (.ok (.ok os) : Run (Except Error _))) :
    ∃ f, ofExpr p e = .ok (.ok f) ∧ f.IsChain (fragmentRow e os) := by
  have hos := Draft.strung_empty.addOperations os
  rw [List.nil_append] at hos
  have hall : (if os.getLast?.map Operation.expr = some e then Draft.addOperations false {} os
      else (Draft.addOperations false {} os).add .nop (.expr e)).Strung (fragmentRow e os) := by
    rw [fragmentRow]
    split
    · rwa [List.append_nil]
    · exact hos.add .nop (.expr e)
  refine ⟨_, Lowered.bind_eq_ok.2 ⟨os, h, rfl⟩, ?_⟩
  generalize (if os.getLast?.map Operation.expr = some e then Draft.addOperations false {} os
      else (Draft.addOperations false {} os).add .nop (.expr e)) = d at hall
  have hne := fragmentRow_ne_nil e os
  exact {
    ne_nil := hne
    order := hall.order
    nodes := hall.nodes
    parent := fun node hnode => parent_of_mem_fragmentRow hnode
    edges := hall.edges
    inPorts := hall.inPorts
    outPorts := hall.outPorts
    entry := hall.entry.trans (if_neg hne)
    exit := by
      have hpos := List.length_pos_iff.2 hne
      change d.graph.order.getLast? = _
      rw [hall.order, List.getLast?_map, List.getLast?_range, if_neg (Nat.ne_of_gt hpos)]
      rfl }

end Dataflow
