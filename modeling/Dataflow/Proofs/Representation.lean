import Dataflow.Proofs.Building

/-!
# What a graph looks like, whatever was done to it

The tables of a graph say again what its arenas say: which edges enter a node and which leave it,
which edges lack an end, which nodes are in order. No operation on graphs, not even a splice that
fails half-way or handles of nodes that are not there, brings them out of step.

* `Graph.Intact`: a consistent graph whose ports are exactly the edges that lack an end, and whose
  nodes in order were not removed;
* `Graph.Built.intact`: all graphs that the operations make are intact;
* `Graph.Built.exact_tables`: what that means for each list of a graph, and what is then left for
  `Graph.verify` to find.
-/

namespace Dataflow

/-! ### Lists of ports -/

/-- The ports on one side are the edges that are open there, each listed once. -/
structure Ported (edges : Arena "edge" Edge) (side : Edge → Option NodeId)
    (ports : List EdgeId) : Prop where
  mem_iff : ∀ e : EdgeId, e ∈ ports ↔ e.index < edges.size ∧ (edges.get? e).bind side = none
  nodup : ports.Nodup

namespace Ported

variable {edges edges' : Arena "edge" Edge} {side : Edge → Option NodeId} {ports : List EdgeId}
  {edge : Edge}

theorem empty (side : Edge → Option NodeId) : Ported {} side [] where
  mem_iff e := by simp [Arena.size]
  nodup := .nil

variable (h : Ported edges side ports)
include h

/-- The next edge is no port yet. -/
theorem next_not_mem : edges.next ∉ ports :=
  fun hmem => Nat.lt_irrefl _ ((h.mem_iff edges.next).1 hmem).1

/-- An edge is a port of a larger arena if it is one of the smaller or is new and open. -/
theorem mem_push_iff (e : EdgeId) :
    e.index < (edges.push edge).size ∧ ((edges.push edge).get? e).bind side = none ↔
      e ∈ ports ∨ e = edges.next ∧ side edge = none := by
  rw [h.mem_iff, Arena.get?_push, Arena.size_push]
  by_cases he : e = edges.next
  · subst he
    rw [if_pos rfl, Option.bind_some]
    exact ⟨fun ho => .inr ⟨rfl, ho.2⟩, fun ho => ⟨Nat.lt_succ_self _, by
      rcases ho with ho | ho
      · exact absurd ho.1 (Nat.lt_irrefl _)
      · exact ho.2⟩⟩
  · have hlt : e.index < edges.size + 1 ↔ e.index < edges.size :=
      ⟨fun hlt => Nat.lt_of_le_of_ne (Nat.le_of_lt_succ hlt) fun heq => he (Handle.index_inj.1 heq),
        Nat.lt_succ_of_lt⟩
    rw [if_neg he, hlt]
    exact ⟨.inl, fun ho => ho.resolve_right fun hnext => he hnext.1⟩

/-- One more edge, which has an end on this side. -/
theorem push {n : NodeId} (hedge : side edge = some n) :
    Ported (edges.push edge) side ports where
  mem_iff e := by
    rw [h.mem_push_iff, hedge]
    exact ⟨.inl, fun ho => ho.resolve_right fun hnext => nomatch hnext.2⟩
  nodup := h.nodup

/-- One more edge, which is open on this side. -/
theorem push_open (hedge : side edge = none) :
    Ported (edges.push edge) side (ports ++ [edges.next]) where
  mem_iff e := by
    rw [h.mem_push_iff, List.mem_append, List.mem_singleton]
    exact or_congr_right (and_iff_left hedge).symm
  nodup := by
    refine List.nodup_append.2 ⟨h.nodup, List.nodup_singleton _, ?_⟩
    intro a ha b hb hab
    exact h.next_not_mem (List.mem_singleton.1 hb ▸ hab ▸ ha)

/-- Edges that end elsewhere, and are open where they were. -/
theorem move {place : NodeId → NodeId} (hsize : edges'.size = edges.size)
    (hedges : ∀ e, (edges'.get? e).bind side = ((edges.get? e).bind side).map place) :
    Ported edges' side ports where
  mem_iff e := by rw [h.mem_iff, hsize, hedges, Option.map_eq_none_iff]
  nodup := h.nodup

end Ported

namespace Graph

/-! ### Intact graphs -/

/-- A consistent graph whose ports are the edges that lack an end, and whose nodes in order were
    not removed. -/
structure Intact (g : Graph) : Prop extends Consistent g where
  kept : ∀ n ∈ g.order, g.removed.get n = false
  /-- Only nodes that are there were removed, so that the nodes to come are not. -/
  removed_lt : ∀ n, g.removed.get n = true → n.index < g.nodes.size
  inPorts : Ported g.edges Edge.source g.inPorts
  outPorts : Ported g.edges Edge.target g.outPorts

theorem intact_empty : ({} : Graph).Intact where
  toConsistent := consistent_empty
  kept n hn := by cases hn
  removed_lt n hn := by
    rw [SideTable.get_empty] at hn
    cases hn
  inPorts := .empty _
  outPorts := .empty _

namespace Intact

variable {g f : Graph} (h : g.Intact)
include h

/-- A node past all that are there was not removed. -/
theorem removed_eq_false {n : NodeId} (hn : g.nodes.size ≤ n.index) : g.removed.get n = false :=
  Bool.eq_false_iff.2 fun hremoved => Nat.not_lt.2 hn (h.removed_lt n hremoved)

/-- The nodes in order are live. -/
theorem isLive_eq {n : NodeId} (hn : n ∈ g.order) : g.isLive n = true := by
  have hlt : n.index < g.nodes.items.size := h.allocated n hn
  rw [isLive, h.kept n hn, Arena.contains, decide_eq_true hlt]
  rfl

theorem addNode (node : Node) : (g.addNode node).Intact where
  toConsistent := h.toConsistent.addNode node
  kept n hn := by
    rcases List.mem_append.1 hn with hn | hn
    · exact h.kept n hn
    · exact List.mem_singleton.1 hn ▸ h.removed_eq_false (Nat.le_refl _)
  removed_lt n hn := by
    rw [show (g.addNode node).nodes.size = g.nodes.size + 1 from Arena.size_push _ _]
    exact Nat.lt_succ_of_lt (h.removed_lt n hn)
  inPorts := h.inPorts
  outPorts := h.outPorts

theorem addEdge (source target : NodeId) (label : Option Label) :
    (g.addEdge source target label).Intact :=
  ⟨h.toConsistent.addEdge source target label, h.kept, h.removed_lt, h.inPorts.push rfl,
    h.outPorts.push rfl⟩

theorem addInPort (target : NodeId) : (g.addInPort target).Intact :=
  ⟨h.toConsistent.addInPort target, h.kept, h.removed_lt, h.inPorts.push_open rfl,
    h.outPorts.push rfl⟩

theorem addOutPort (source : NodeId) (label : Option Label) : (g.addOutPort source label).Intact :=
  ⟨h.toConsistent.addOutPort source label, h.kept, h.removed_lt, h.inPorts.push rfl,
    h.outPorts.push_open rfl⟩

theorem withEnds (entry exit : Option NodeId) : ({ g with entry, exit } : Graph).Intact :=
  ⟨⟨h.order_nodup, h.allocated, h.ins, h.outs⟩, h.kept, h.removed_lt, h.inPorts, h.outPorts⟩

/-- More nodes, or other ones in place of those there. -/
theorem withNodes {nodes : Arena "node" Node} (hsize : g.nodes.size ≤ nodes.size) :
    ({ g with nodes } : Graph).Intact :=
  ⟨h.toConsistent.withNodes hsize, h.kept,
    fun n hn => Nat.lt_of_lt_of_le (h.removed_lt n hn) hsize, h.inPorts, h.outPorts⟩

theorem retarget (r c : ExprId) : (g.retarget r c).2.Intact :=
  h.withNodes (Nat.le_of_eq (Arena.size_foldl_modify _ _ _).symm)

/-- Edges added one after the other; none of them removes a node. -/
theorem addEdges (edges : List (NodeId × NodeId × Option Label)) :
    (edges.foldl (fun g (source, target, label) => g.addEdge source target label) g).Intact ∧
      (edges.foldl (fun g (source, target, label) => g.addEdge source target label) g).removed =
        g.removed := by
  induction edges generalizing g with
  | nil => exact ⟨h, rfl⟩
  | cons edge edges ih => exact ih (h.addEdge edge.1 edge.2.1 edge.2.2)

theorem graft (f : Graph) (parent : Option NodeId) :
    (g.graft f parent).Intact ∧ (g.graft f parent).removed = g.removed := by
  refine (h.withNodes ?_).addEdges _
  rw [Consistent.size_foldl_push]
  exact Nat.le_add_right _ _

/-- A node in order that gives its place to others, which have none yet and were not removed. -/
theorem substitute {n entry exit : NodeId} {nodes : List NodeId} (hn : n ∈ g.order)
    (hentry : entry ≠ n) (hexit : exit ≠ n) (hnodup : nodes.Nodup)
    (hnew : ∀ m ∈ nodes, m ∉ g.order) (hlt : ∀ m ∈ nodes, m.index < g.nodes.size)
    (hkept : ∀ m ∈ nodes, g.removed.get m = false) :
    (g.substitute n nodes entry exit).Intact where
  toConsistent := h.toConsistent.substitute hentry hexit hnodup hnew hlt
  kept m hm := by
    -- The one node removed is not in order any more.
    have hget : (g.substitute n nodes entry exit).removed.get m =
        if n = m then true else g.removed.get m := SideTable.get_set _ _ _ _
    rw [hget]
    rcases mem_flatMap_inPlaceOf.1 hm with ⟨_, hm⟩ | ⟨hm, hne⟩
    · rw [if_neg fun heq : n = m => hnew m hm (heq ▸ hn)]
      exact hkept m hm
    · rw [if_neg (Ne.symm hne)]
      exact h.kept m hm
  removed_lt m hm := by
    rw [Graph.substitute, SideTable.get_set] at hm
    split at hm
    · next heq => exact heq ▸ h.allocated n hn
    · exact h.removed_lt m hm
  inPorts := h.inPorts.move (Consistent.size_edges_substitute n entry exit nodes)
    (h.source_substitute n entry exit nodes)
  outPorts := h.outPorts.move (Consistent.size_edges_substitute n entry exit nodes)
    (h.target_substitute n entry exit nodes)

/-- A splice leaves an intact graph, whether it succeeds or not. -/
theorem splice (hf : f.Intact) (n : NodeId) : (g.splice n f).2.Intact := by
  obtain ⟨hgraft, hremoved⟩ := h.graft f ((g.nodes.get? n).bind Node.parent)
  obtain ⟨_, horder, hsize⟩ := h.toConsistent.graft hf.toConsistent
    ((g.nodes.get? n).bind Node.parent)
  obtain ⟨_, _, heq⟩ | ⟨hn, _, _, _, _, _, _, ⟨_, heq⟩ | ⟨_, _, heq⟩⟩ := splice_cases g n f
  · exact heq ▸ h
  · exact heq ▸ hgraft
  · rw [heq]
    have hlt := h.allocated n hn
    refine hgraft.substitute (horder ▸ hn) (copyIn_ne f _ hlt) (copyIn_ne f _ hlt)
      (upcoming_nodup _) (fun m hm => ?_) (fun m hm => ?_) fun m hm => ?_
    · rw [horder]
      exact fun hmem => Nat.not_lt.2 (mem_upcoming.1 hm).1 (h.allocated m hmem)
    · rw [hsize]
      exact (mem_upcoming.1 hm).2
    · rw [hremoved]
      exact h.removed_eq_false (mem_upcoming.1 hm).1

end Intact

/-- Every graph that the operations make is intact. -/
theorem Built.intact {g : Graph} (h : g.Built) : g.Intact := by
  induction h with
  | empty => exact intact_empty
  | addNode node _ ih => exact ih.addNode node
  | addEdge source target label _ ih => exact ih.addEdge source target label
  | addInPort target _ ih => exact ih.addInPort target
  | addOutPort source label _ ih => exact ih.addOutPort source label
  | withEnds entry exit _ ih => exact ih.withEnds entry exit
  | retarget r c _ ih => exact ih.retarget r c
  | splice n _ _ ih ihf => exact ih.splice ihf n

/-! ### What verification finds -/

variable {g : Graph}

/-- Nodes in order of an intact graph pass verification. -/
theorem Intact.verifyNode_eq (h : g.Intact) {n : NodeId} (hn : n ∈ g.order) :
    g.verifyNode n = .ok () := by
  rw [verifyNode, h.kept n hn, if_neg Bool.false_ne_true]
  dsimp only
  rw [forM_eq_ok fun e he => by rw [if_neg (not_not.2 ((h.ins.mem_iff n e).1 he))]; rfl]
  exact forM_eq_ok fun e he => by rw [if_neg (not_not.2 ((h.outs.mem_iff n e).1 he))]; rfl

/-- Edges between nodes in order pass verification. -/
theorem Intact.verifyEdge_eq (h : g.Intact) {edge : Edge}
    (hends : ∀ n, edge.source = some n ∨ edge.target = some n → n ∈ g.order) (e : EdgeId) :
    g.verifyEdge e edge = .ok () := by
  refine forM_eq_ok fun n hn => ?_
  have hmem : n ∈ g.order := by
    rw [List.mem_append, Option.mem_toList, Option.mem_toList] at hn
    exact hends n hn
  rw [h.kept n hmem, List.contains_iff_mem.2 hmem]
  rfl

/-- The entry of a graph that passes verification is live. -/
theorem isLive_of_verify_eq_ok (h : g.verify = .ok ()) {n : NodeId} (hn : g.entry = some n) :
    g.isLive n = true := by
  rw [verify] at h
  split at h
  · obtain ⟨_, _, h⟩ := exists_of_bind_eq_ok h
    obtain ⟨_, _, h⟩ := exists_of_bind_eq_ok h
    by_contra hlive
    simp [hn, hlive] at h
  · cases h

/-- All that verification can find wrong with an intact graph are ports, edges from or to nodes
    that are not in order, and an entry that is not live. -/
theorem Intact.verify_eq_ok_iff (h : g.Intact) : g.verify = .ok () ↔
    g.inPorts = [] ∧ g.outPorts = [] ∧
    (∀ e edge, g.edges.get? e = some edge → ∀ n, edge.source = some n ∨ edge.target = some n →
      n ∈ g.order) ∧
    ∀ n, g.entry = some n → g.isLive n = true := by
  constructor
  · intro hverify
    obtain ⟨hin, hout, hends⟩ := of_verify_eq_ok hverify
    exact ⟨hin, hout, hends, fun n hn => isLive_of_verify_eq_ok hverify hn⟩
  · rintro ⟨hin, hout, hends, hentry⟩
    rw [verify, hin, hout, forM_eq_ok fun n hn => h.verifyNode_eq hn,
      forM_eq_ok fun entry he => h.verifyEdge_eq (hends entry.1 entry.2 (Arena.mem_entries.1 he)) _]
    cases hn : g.entry with
    | none => rfl
    | some n =>
      simp only [hentry n hn]
      rfl

/-! ### The representation of a graph -/

/-- An edge is listed once at the node where it ends on one side, and nowhere else. -/
theorem count_of_tabled {edges : Arena "edge" Edge} {side : Edge → Option NodeId}
    {table : SideTable "node" (List EdgeId)} {ports : List EdgeId}
    (h : Tabled edges side table ports) (n : NodeId) (e : EdgeId) :
    (table.get n).count e = if (edges.get? e).bind side = some n then 1 else 0 := by
  rw [List.Nodup.count (h.nodup n)]
  simp only [h.mem_iff]

/-- An edge is listed once among the ports if it is open on their side, and else not. -/
theorem count_of_ported {edges : Arena "edge" Edge} {side : Edge → Option NodeId}
    {ports : List EdgeId} (h : Ported edges side ports) (e : EdgeId) :
    ports.count e = if (edges.get? e).map side = some none then 1 else 0 := by
  rw [List.Nodup.count h.nodup]
  have hopen : e ∈ ports ↔ (edges.get? e).map side = some none := by
    rw [h.mem_iff]
    cases hedge : edges.get? e with
    | none => simp [Nat.not_lt.2 ((edges.get?_eq_none_iff e).1 hedge)]
    | some edge => simp [Arena.get?_eq_some_lt hedge]
  simp only [hopen]

/-- Whatever operations made a graph, its order lists nodes that are there and were not removed,
    each once; its tables list each edge once where it ends, and its ports each edge that lacks
    an end. All that is left for verification to find are ports, ends of edges that are not in
    order, and an entry that is not live. -/
theorem Built.exact_tables {g : Graph} (h : g.Built) :
    g.order.Nodup ∧
    (∀ n ∈ g.order, n.index < g.nodes.size ∧ g.removed.get n = false) ∧
    (∀ n e, (g.inEdges.get n).count e =
      if (g.edges.get? e).bind Edge.target = some n then 1 else 0) ∧
    (∀ n e, (g.outEdges.get n).count e =
      if (g.edges.get? e).bind Edge.source = some n then 1 else 0) ∧
    (∀ e, g.inPorts.count e = if (g.edges.get? e).map Edge.source = some none then 1 else 0) ∧
    (∀ e, g.outPorts.count e = if (g.edges.get? e).map Edge.target = some none then 1 else 0) ∧
    (g.verify = .ok () ↔
      g.inPorts = [] ∧ g.outPorts = [] ∧
      (∀ e edge, g.edges.get? e = some edge → ∀ n, edge.source = some n ∨ edge.target = some n →
        n ∈ g.order) ∧
      ∀ n, g.entry = some n → g.isLive n = true) := by
  have hg := h.intact
  exact ⟨hg.order_nodup, fun n hn => ⟨hg.allocated n hn, hg.kept n hn⟩, count_of_tabled hg.ins,
    count_of_tabled hg.outs, count_of_ported hg.inPorts, count_of_ported hg.outPorts,
    hg.verify_eq_ok_iff⟩

/-- Two nodes joined by an edge, with an exit that is not there. -/
def sampleUnfinished : Graph :=
  { (((({} : Graph).addNode { kind := .nop }).addNode { kind := .nop }).addEdge ⟨0⟩ ⟨1⟩ none) with
    entry := some ⟨0⟩, exit := some ⟨7⟩ }

/-- What a splice leaves behind that finds out too late that the fragment has no exit. -/
def sampleHalfSpliced : Graph :=
  (((({} : Graph).addNode { kind := .block }).addEdge ⟨0⟩ ⟨0⟩ none).splice ⟨0⟩ sampleUnfinished).2

/-- The copied edge is listed at the copies, which have no place in the order. -/
theorem exact_tables_halfSpliced : sampleHalfSpliced.Built ∧
    (sampleHalfSpliced.inEdges.get ⟨2⟩).count ⟨1⟩ = 1 ∧
    (sampleHalfSpliced.inEdges.get ⟨0⟩).count ⟨1⟩ = 0 ∧ sampleHalfSpliced.verify ≠ .ok () := by
  have hbuilt : sampleHalfSpliced.Built :=
    .splice _ (.addEdge _ _ _ (.addNode _ .empty))
      (.withEnds _ _ (.addEdge _ _ _ (.addNode _ (.addNode _ .empty))))
  obtain ⟨_, _, hin, _, _, _, hverify⟩ := Built.exact_tables hbuilt
  refine ⟨hbuilt, (hin ⟨2⟩ ⟨1⟩).trans rfl, (hin ⟨0⟩ ⟨1⟩).trans rfl, fun hok => ?_⟩
  obtain ⟨_, _, hends, _⟩ := hverify.1 hok
  exact absurd (hends ⟨1⟩ _ rfl ⟨2⟩ (.inr rfl)) (by decide)

end Graph

end Dataflow
