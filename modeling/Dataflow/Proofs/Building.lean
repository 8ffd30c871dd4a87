import Dataflow.Proofs.Drafts
import Dataflow.Proofs.Splicing

/-!
# What the operations on graphs keep

Graphs are made by adding nodes, edges and ports to the empty one, by naming an entry and an exit,
by splicing one graph into another, and by changing what nodes say. Whatever is done, and even
where a splice fails half-way, the edges stay listed at the nodes where they begin and end, and an
edge that lacks an end stays listed among the ports.

* `Graph.splice_cases`: the ways that a splice can go;
* `Graph.Built`: the graphs made by these operations, those of bodies among them
  (`Graph.ofBody_built`);
* `Graph.Consistent`: what all of them keep (`Graph.Built.consistent`);
* `Graph.Consistent.indexed`: a consistent graph without ports is indexed;
* `Graph.Consistent.wired`: a consistent graph that passes `Graph.verify` is wired, so that edges
  join nodes in order only.
-/

namespace Dataflow

/-! ### Tables of edges -/

/-- A table lists at each node the edges that end there on the given side, each once. Edges that
    are open on this side are among `ports`. -/
structure Tabled (edges : Arena "edge" Edge) (side : Edge → Option NodeId)
    (table : SideTable "node" (List EdgeId)) (ports : List EdgeId) : Prop where
  mem_iff : ∀ n e, e ∈ table.get n ↔ (edges.get? e).bind side = some n
  nodup : ∀ n, (table.get n).Nodup
  mem_ports : ∀ e : EdgeId, e.index < edges.size → (edges.get? e).bind side = none → e ∈ ports

namespace Tabled

variable {edges edges' : Arena "edge" Edge} {side : Edge → Option NodeId}
  {table : SideTable "node" (List EdgeId)} {ports : List EdgeId} {edge : Edge}
  (h : Tabled edges side table ports)
include h

/-- The next edge is listed nowhere. -/
theorem next_not_mem (n : NodeId) : edges.next ∉ table.get n := by
  rw [h.mem_iff, (edges.get?_eq_none_iff edges.next).2 (Nat.le_refl _)]
  exact nofun

omit h in
/-- An edge of a larger arena is the new one or an old one. -/
theorem index_lt_of_ne {e : EdgeId} (he : e.index < (edges.push edge).size)
    (hne : e ≠ edges.next) : e.index < edges.size := by
  rw [Arena.size_push] at he
  exact Nat.lt_of_le_of_ne (Nat.le_of_lt_succ he) fun heq => hne (Handle.index_inj.1 heq)

/-- One more edge, which ends at the node `n`. -/
theorem push {n : NodeId} (hedge : side edge = some n) :
    Tabled (edges.push edge) side (table.modify n (· ++ [edges.next])) ports where
  mem_iff m e := by
    rw [SideTable.get_modify, Arena.get?_push]
    by_cases he : e = edges.next
    · subst he
      rw [if_pos rfl, Option.bind_some, hedge, Option.some_inj]
      split
      · next hm => exact ⟨fun _ => hm, fun _ => by simp⟩
      · next hm => exact ⟨fun hmem => absurd hmem (h.next_not_mem m), fun hnm => absurd hnm hm⟩
    · rw [if_neg he, ← h.mem_iff]
      split
      · next hm => simp [hm, he]
      · rfl
  nodup m := by
    rw [SideTable.get_modify]
    split
    · refine List.nodup_append.2 ⟨h.nodup n, List.nodup_singleton _, ?_⟩
      intro a ha b hb hab
      exact h.next_not_mem n (List.mem_singleton.1 hb ▸ hab ▸ ha)
    · exact h.nodup m
  mem_ports e he hopen := by
    by_cases hne : e = edges.next
    · subst hne
      rw [Arena.get?_push_next, Option.bind_some, hedge] at hopen
      cases hopen
    · rw [Arena.get?_push, if_neg hne] at hopen
      exact h.mem_ports e (index_lt_of_ne he hne) hopen

/-- One more edge, which is open. -/
theorem push_open (hedge : side edge = none) :
    Tabled (edges.push edge) side table (ports ++ [edges.next]) where
  mem_iff m e := by
    rw [Arena.get?_push]
    split
    · next he =>
      rw [he, Option.bind_some, hedge]
      exact ⟨fun hmem => absurd hmem (h.next_not_mem m), nofun⟩
    · exact h.mem_iff m e
  nodup := h.nodup
  mem_ports e he hopen := by
    by_cases hne : e = edges.next
    · exact List.mem_append_right _ (List.mem_singleton.2 hne)
    · rw [Arena.get?_push, if_neg hne] at hopen
      exact List.mem_append_left _ (h.mem_ports e (index_lt_of_ne he hne) hopen)

/-- The edges that ended at the node `n` end at another one. -/
theorem move {n other : NodeId} (hother : other ≠ n) (hsize : edges'.size = edges.size)
    (hedges : ∀ e, (edges'.get? e).bind side =
      ((edges.get? e).bind side).map (Graph.moved n other)) :
    Tabled edges' side ((table.set n []).modify other (· ++ table.get n)) ports where
  mem_iff m e := by
    rw [hedges, Option.map_eq_some_iff]
    simp only [← h.mem_iff, Graph.moved_eq_iff hother, SideTable.get_modify, SideTable.get_set,
      if_neg (Ne.symm hother)]
    by_cases hm : m = n
    · subst hm
      simp [hother]
    · by_cases ho : other = m
      · subst ho
        simp [hm, and_or_left, exists_or]
      · simp [ho, hm, Ne.symm hm, Ne.symm ho]
  nodup m := by
    rw [SideTable.get_modify, SideTable.get_set, SideTable.get_set, if_neg (Ne.symm hother)]
    split
    · refine List.nodup_append.2 ⟨h.nodup other, h.nodup n, ?_⟩
      rintro e he _ he' rfl
      rw [h.mem_iff] at he he'
      exact hother (Option.some.inj (he.symm.trans he'))
    · split
      · exact .nil
      · exact h.nodup m
  mem_ports e he hopen := by
    rw [hedges, Option.map_eq_none_iff] at hopen
    exact h.mem_ports e (hsize ▸ he) hopen

end Tabled

namespace Graph

section Copies

variable {g f : Graph} {m : NodeId}

/-! ### The node that a copy is -/

/-- The node that a splice of `f` into `g` makes for the node `m` in the order of `f`. -/
def copyIn (g f : Graph) (m : NodeId) : NodeId := ⟨g.nodes.size + f.order.idxOf m⟩

theorem copyOf_of_mem (g : Graph) (hm : m ∈ f.order) : g.copyOf f m = some (g.copyIn f m) := by
  obtain ⟨i, hi⟩ := Option.isSome_iff_exists.1 (List.isSome_idxOf?.2 hm)
  rw [copyOf, position, hi, copyIn, List.idxOf_eq_getD_idxOf?, hi]
  rfl

theorem copyOf_of_not_mem (g : Graph) (hm : m ∉ f.order) : g.copyOf f m = none := by
  rw [copyOf, position, List.idxOf?_eq_none_iff.2 hm]
  rfl

theorem size_le_copyIn (g f : Graph) (m : NodeId) : g.nodes.size ≤ (g.copyIn f m).index :=
  Nat.le_add_right _ _

theorem copyIn_ne (f : Graph) (k : NodeId) (hm : m.index < g.nodes.size) : g.copyIn f k ≠ m :=
  fun heq => Nat.not_lt.2 (size_le_copyIn g f k) (heq ▸ hm)

theorem copyIn_injOn {k : NodeId} (hm : m ∈ f.order) (h : g.copyIn f m = g.copyIn f k) : m = k :=
  (List.idxOf_inj hm).1 (Nat.add_left_cancel (Handle.mk.inj h))

theorem copies_eq (g : Graph) (hf : f.order.Nodup) : g.copies f = f.order.map (g.copyIn f) := by
  refine List.ext_getElem (by simp [copies]) fun i _ hi => ?_
  rw [List.length_map] at hi
  simp [copies, copyIn, hf.idxOf_getElem i hi]

/-! ### The ways that a splice can go -/

/-- A splice finds something wrong before it has changed anything, or copies the fragment; then it
    fails, or the copies take the place of the node. -/
theorem splice_cases (g : Graph) (n : NodeId) (f : Graph) :
    (∃ err, err ≠ .fragmentEndsUnordered ∧ g.splice n f = (.error err, g)) ∨
    n ∈ g.order ∧ f.inPorts = [] ∧ f.outPorts = [] ∧ ∃ entry exit, f.entry = some entry ∧
      f.exit = some exit ∧
      ((entry ∉ f.order ∨ exit ∉ f.order) ∧ g.splice n f = (.error .fragmentEndsUnordered,
          g.graft f ((g.nodes.get? n).bind Node.parent)) ∨
        entry ∈ f.order ∧ exit ∈ f.order ∧ g.splice n f = (.ok (g.copies f),
          (g.graft f ((g.nodes.get? n).bind Node.parent)).substitute n (g.copies f)
            (g.copyIn f entry) (g.copyIn f exit))) := by
  rw [splice]
  split
  · exact .inl ⟨_, by simp, rfl⟩
  split
  · exact .inl ⟨_, by simp, rfl⟩
  next hports =>
  split
  · next entry exit hentry hexit =>
    split
    · exact .inl ⟨_, by simp, rfl⟩
    next hn =>
    right
    simp only [Bool.not_eq_true', Bool.not_eq_false, Bool.and_eq_true, List.isEmpty_iff] at hports
    refine ⟨not_not.1 hn, hports.1, hports.2, entry, exit, hentry, hexit, ?_⟩
    by_cases he : entry ∈ f.order
    · by_cases hx : exit ∈ f.order
      · exact .inr ⟨he, hx, by simp only [copyOf_of_mem g he, copyOf_of_mem g hx]⟩
      · exact .inl ⟨.inr hx, by simp only [copyOf_of_mem g he, copyOf_of_not_mem g hx]⟩
    · exact .inl ⟨.inl he, by simp only [copyOf_of_not_mem g he]⟩
  · exact .inl ⟨_, by simp, rfl⟩

end Copies

/-! ### Consistent graphs -/

/-- The graphs that the operations on graphs make. -/
inductive Built : Graph → Prop
  | empty : Built {}
  | addNode {g : Graph} (node : Node) : Built g → Built (g.addNode node)
  | addEdge {g : Graph} (source target : NodeId) (label : Option Label) : Built g →
    Built (g.addEdge source target label)
  | addInPort {g : Graph} (target : NodeId) : Built g → Built (g.addInPort target)
  | addOutPort {g : Graph} (source : NodeId) (label : Option Label) : Built g →
    Built (g.addOutPort source label)
  | withEnds {g : Graph} (entry exit : Option NodeId) : Built g → Built { g with entry, exit }
  | retarget {g : Graph} (r c : ExprId) : Built g → Built (g.retarget r c).2
  | splice {g f : Graph} (n : NodeId) : Built g → Built f → Built (g.splice n f).2

/-- The graph of a body is one of them. -/
theorem ofBody_built {p : Program} {body : StmtId} {g : Graph}
    (h : ofBody p body = .ok (.ok g)) : g.Built :=
  have hkeeps : Draft.Keeps Built :=
    ⟨fun node _ => .addNode node, .addEdge, fun entry exit => .withEnds entry exit⟩
  hkeeps.ofBody h .empty

/-- A graph whose nodes in order are there, and whose edges are listed where they begin and end,
    or among the ports. -/
structure Consistent (g : Graph) : Prop where
  order_nodup : g.order.Nodup
  allocated : ∀ n ∈ g.order, n.index < g.nodes.size
  ins : Tabled g.edges Edge.target g.inEdges g.outPorts
  outs : Tabled g.edges Edge.source g.outEdges g.inPorts

theorem tabled_empty (side : Edge → Option NodeId) : Tabled {} side {} [] where
  mem_iff n e := by
    rw [SideTable.get_empty]
    simp [Arena.get?, default]
  nodup n := by
    rw [SideTable.get_empty]
    exact .nil
  mem_ports e he := by simp [Arena.size] at he

theorem consistent_empty : ({} : Graph).Consistent :=
  ⟨.nil, by simp, tabled_empty _, tabled_empty _⟩

namespace Consistent

variable {g f : Graph} (h : g.Consistent)
include h

theorem addNode (node : Node) : (g.addNode node).Consistent where
  order_nodup := List.nodup_append.2 ⟨h.order_nodup, List.nodup_singleton _, by
    intro a ha b hb hab
    rw [hab, List.mem_singleton.1 hb] at ha
    exact Nat.lt_irrefl _ (h.allocated _ ha)⟩
  allocated n hn := by
    rw [show (g.addNode node).nodes.size = g.nodes.size + 1 from Arena.size_push _ _]
    rcases List.mem_append.1 hn with hn | hn
    · exact Nat.lt_succ_of_lt (h.allocated n hn)
    · exact List.mem_singleton.1 hn ▸ Nat.lt_succ_self _
  ins := h.ins
  outs := h.outs

theorem addEdge (source target : NodeId) (label : Option Label) :
    (g.addEdge source target label).Consistent :=
  ⟨h.order_nodup, h.allocated, h.ins.push rfl, h.outs.push rfl⟩

theorem addInPort (target : NodeId) : (g.addInPort target).Consistent :=
  ⟨h.order_nodup, h.allocated, h.ins.push rfl, h.outs.push_open rfl⟩

theorem addOutPort (source : NodeId) (label : Option Label) :
    (g.addOutPort source label).Consistent :=
  ⟨h.order_nodup, h.allocated, h.ins.push_open rfl, h.outs.push rfl⟩

/-- More nodes, or other ones in place of those there. -/
theorem withNodes {nodes : Arena "node" Node} (hsize : g.nodes.size ≤ nodes.size) :
    ({ g with nodes } : Graph).Consistent :=
  ⟨h.order_nodup, fun n hn => Nat.lt_of_lt_of_le (h.allocated n hn) hsize, h.ins, h.outs⟩

theorem addEdges (edges : List (NodeId × NodeId × Option Label)) :
    (edges.foldl (fun g (source, target, label) => g.addEdge source target label)
      g).Consistent := by
  induction edges generalizing g with
  | nil => exact h
  | cons edge edges ih => exact ih (h.addEdge edge.1 edge.2.1 edge.2.2)

omit h in
theorem size_foldl_push {α β : Type} {name : String} (l : List α) (make : α → β)
    (a : Arena name β) : (l.foldl (fun a x => a.push (make x)) a).size = a.size + l.length := by
  induction l generalizing a with
  | nil => rfl
  | cons x l ih => rw [List.foldl_cons, ih, Arena.size_push, List.length_cons]; omega

omit h in
theorem nodes_foldl_addEdge (edges : List (NodeId × NodeId × Option Label)) (g : Graph) :
    (edges.foldl (fun g (source, target, label) => g.addEdge source target label) g).nodes =
        g.nodes ∧
      (edges.foldl (fun g (source, target, label) => g.addEdge source target label) g).order =
        g.order := by
  induction edges generalizing g with
  | nil => exact ⟨rfl, rfl⟩
  | cons edge edges ih => exact ih _

/-- A grafted graph is consistent, whatever the fragment, and has as many more nodes as are in
    its order. -/
theorem graft (hf : f.Consistent) (parent : Option NodeId) :
    (g.graft f parent).Consistent ∧ (g.graft f parent).order = g.order ∧
      (g.graft f parent).nodes.size = g.nodes.size + f.order.length := by
  have hall : (f.order.filterMap f.nodes.get?).length = f.order.length := by
    rw [List.length_filterMap_eq_countP, List.countP_eq_length]
    intro n hn
    obtain ⟨node, hnode⟩ := Arena.exists_get?_of_lt (hf.allocated n hn)
    rw [hnode]
    rfl
  have hsize := size_foldl_push (f.order.filterMap f.nodes.get?) (g.copyNode f parent) g.nodes
  rw [hall] at hsize
  refine ⟨(h.withNodes ?_).addEdges _, (nodes_foldl_addEdge _ _).2, ?_⟩
  · rw [hsize]
    exact Nat.le_add_right _ _
  · rw [Graph.graft, (nodes_foldl_addEdge _ _).1]
    exact hsize

omit h in
/-- A change that leaves one side of edges alone changes nothing on it. -/
theorem bind_foldl_modify_of_side_eq (side : Edge → Option NodeId) (change : Edge → Edge)
    (hchange : ∀ edge, side (change edge) = side edge) {l : List EdgeId} (hl : l.Nodup)
    (edges : Arena "edge" Edge) (e : EdgeId) :
    ((l.foldl (fun edges e => edges.modify e change) edges).get? e).bind side =
      (edges.get? e).bind side := by
  rw [Arena.get?_foldl_modify hl]
  split
  · rw [Option.bind_map]
    exact congrArg _ (funext hchange)
  · rfl

omit h in
/-- Where the edges that ended at `n` on one side were changed to end at `other`. -/
theorem bind_foldl_modify {side : Edge → Option NodeId} {change : Edge → Edge} (n : NodeId)
    {other : NodeId} (hchange : ∀ edge, side (change edge) = some other) {l : List EdgeId} (hl : l.Nodup)
    {edges : Arena "edge" Edge} (hmem : ∀ e, e ∈ l ↔ (edges.get? e).bind side = some n)
    (e : EdgeId) :
    ((l.foldl (fun edges e => edges.modify e change) edges).get? e).bind side =
      ((edges.get? e).bind side).map (moved n other) := by
  rw [Arena.get?_foldl_modify hl]
  split
  · next he =>
    obtain ⟨edge, hedge, hside⟩ := Option.bind_eq_some_iff.1 ((hmem e).1 he)
    simp [hedge, hside, hchange, moved]
  · next he =>
    rw [hmem] at he
    cases hside : (edges.get? e).bind side with
    | none => rfl
    | some m =>
      have hm : m ≠ n := fun hm => he (hside.trans (congrArg some hm))
      simp [moved, hm]

omit h in
theorem size_edges_substitute (n entry exit : NodeId) (nodes : List NodeId) :
    (g.substitute n nodes entry exit).edges.size = g.edges.size := by
  rw [Graph.substitute, Arena.size_foldl_modify, Arena.size_foldl_modify]

/-- Where edges end once the node `n` has given its place to others. -/
theorem target_substitute (n entry exit : NodeId) (nodes : List NodeId) (e : EdgeId) :
    ((g.substitute n nodes entry exit).edges.get? e).bind Edge.target =
      ((g.edges.get? e).bind Edge.target).map (moved n entry) := by
  refine (bind_foldl_modify_of_side_eq Edge.target
    (fun edge => { edge with source := some exit }) (fun _ => rfl) (h.outs.nodup n) _ e).trans ?_
  exact bind_foldl_modify n (fun _ => rfl) (h.ins.nodup n) (h.ins.mem_iff n) e

/-- Where edges begin once the node `n` has given its place to others. -/
theorem source_substitute (n entry exit : NodeId) (nodes : List NodeId) (e : EdgeId) :
    ((g.substitute n nodes entry exit).edges.get? e).bind Edge.source =
      ((g.edges.get? e).bind Edge.source).map (moved n exit) := by
  -- The edges into `n` have changed by now, but only where they end.
  have hsame := bind_foldl_modify_of_side_eq Edge.source
    (fun edge => { edge with target := some entry }) (fun _ => rfl) (h.ins.nodup n) g.edges
  refine (bind_foldl_modify n (fun _ => rfl) (h.outs.nodup n) (fun d => ?_) e).trans ?_
  · rw [hsame]
    exact h.outs.mem_iff n d
  · rw [hsame]

/-- A node that gives its place to others that have none yet, and its edges to two of them. -/
theorem substitute {n entry exit : NodeId} {nodes : List NodeId} (hentry : entry ≠ n)
    (hexit : exit ≠ n) (hnodup : nodes.Nodup) (hnew : ∀ m ∈ nodes, m ∉ g.order)
    (hlt : ∀ m ∈ nodes, m.index < g.nodes.size) :
    (g.substitute n nodes entry exit).Consistent where
  order_nodup := nodup_flatMap_inPlaceOf h.order_nodup hnodup hnew
  allocated m hm := by
    rcases mem_flatMap_inPlaceOf.1 hm with ⟨_, hm⟩ | ⟨hm, _⟩
    · exact hlt m hm
    · exact h.allocated m hm
  ins := h.ins.move hentry (size_edges_substitute n entry exit nodes)
    (h.target_substitute n entry exit nodes)
  outs := h.outs.move hexit (size_edges_substitute n entry exit nodes)
    (h.source_substitute n entry exit nodes)

theorem retarget (r c : ExprId) : (g.retarget r c).2.Consistent :=
  h.withNodes (Nat.le_of_eq (Arena.size_foldl_modify _ _ _).symm)

/-- A splice leaves a consistent graph, whether it succeeds or not. -/
theorem splice (hf : f.Consistent) (n : NodeId) : (g.splice n f).2.Consistent := by
  obtain ⟨hgraft, horder, hsize⟩ := h.graft hf ((g.nodes.get? n).bind Node.parent)
  obtain ⟨_, _, heq⟩ | ⟨hn, _, _, _, _, _, _, ⟨_, heq⟩ | ⟨_, _, heq⟩⟩ := splice_cases g n f
  · exact heq ▸ h
  · exact heq ▸ hgraft
  · rw [heq]
    have hlt := h.allocated n hn
    refine hgraft.substitute (copyIn_ne f _ hlt) (copyIn_ne f _ hlt) (upcoming_nodup _)
      (fun m hm => ?_) fun m hm => ?_
    · rw [horder]
      exact fun hmem => Nat.not_lt.2 (mem_upcoming.1 hm).1 (h.allocated m hmem)
    · rw [hsize]
      exact (mem_upcoming.1 hm).2

end Consistent

/-- Every graph that the operations make is consistent. -/
theorem Built.consistent {g : Graph} (h : g.Built) : g.Consistent := by
  induction h with
  | empty => exact consistent_empty
  | addNode node _ ih => exact ih.addNode node
  | addEdge source target label _ ih => exact ih.addEdge source target label
  | addInPort target _ ih => exact ih.addInPort target
  | addOutPort source label _ ih => exact ih.addOutPort source label
  | withEnds entry exit _ ih => exact ⟨ih.order_nodup, ih.allocated, ih.ins, ih.outs⟩
  | retarget r c _ ih => exact ih.retarget r c
  | splice n _ _ ih ihf => exact ih.splice ihf n

/-! ### Verified graphs -/

theorem exists_of_bind_eq_ok {ε α β : Type} {x : Except ε α} {f : α → Except ε β} {b : β}
    (h : x >>= f = .ok b) : ∃ a, x = .ok a ∧ f a = .ok b := by
  cases x with
  | error => cases h
  | ok a => exact ⟨a, rfl, h⟩

theorem eq_ok_of_forM {ε α : Type} {check : α → Except ε Unit} {l : List α}
    (h : l.forM check = .ok ()) : ∀ x ∈ l, check x = .ok () := by
  induction l with
  | nil => exact fun x hx => absurd hx List.not_mem_nil
  | cons y l ih =>
    obtain ⟨_, hy, h⟩ := exists_of_bind_eq_ok h
    exact List.forall_mem_cons.2 ⟨hy, ih h⟩

/-- The ends of an edge that passes verification are in order. -/
theorem mem_order_of_verifyEdge {g : Graph} {e : EdgeId} {edge : Edge} {n : NodeId}
    (h : g.verifyEdge e edge = .ok ()) (hn : edge.source = some n ∨ edge.target = some n) :
    n ∈ g.order := by
  have hcheck := eq_ok_of_forM h n (by rcases hn with hn | hn <;> simp [hn])
  by_contra hnot
  simp [hnot] at hcheck

/-- A graph that passes verification has no ports, and all ends of its edges are in order. -/
theorem of_verify_eq_ok {g : Graph} (h : g.verify = .ok ()) : g.inPorts = [] ∧ g.outPorts = [] ∧
    ∀ e edge, g.edges.get? e = some edge → ∀ n, edge.source = some n ∨ edge.target = some n →
      n ∈ g.order := by
  rw [verify] at h
  split at h
  · next hports =>
    obtain ⟨hin, hout⟩ := Bool.and_eq_true_iff.1 hports
    obtain ⟨_, _, h⟩ := exists_of_bind_eq_ok h
    obtain ⟨_, hedges, _⟩ := exists_of_bind_eq_ok h
    refine ⟨List.isEmpty_iff.1 hin, List.isEmpty_iff.1 hout, fun e edge hedge n hn => ?_⟩
    exact mem_order_of_verifyEdge (eq_ok_of_forM hedges (e, edge) (Arena.mem_entries.2 hedge)) hn
  · cases h

/-- Without ports, every edge has both ends. -/
theorem Consistent.exists_ends {g : Graph} (h : g.Consistent) (hinPorts : g.inPorts = [])
    (houtPorts : g.outPorts = []) {e : EdgeId} {edge : Edge} (hedge : g.edges.get? e = some edge) :
    ∃ s t, edge.source = some s ∧ edge.target = some t := by
  have hlt := Arena.get?_eq_some_lt hedge
  cases hs : edge.source with
  | none =>
    have hport := h.outs.mem_ports e hlt (by rw [hedge]; exact hs)
    rw [hinPorts] at hport
    cases hport
  | some s =>
    cases ht : edge.target with
    | none =>
      have hport := h.ins.mem_ports e hlt (by rw [hedge]; exact ht)
      rw [houtPorts] at hport
      cases hport
    | some t => exact ⟨s, t, rfl, rfl⟩

theorem joins_of_ends {g : Graph} {e : EdgeId} {edge : Edge} {s t : NodeId}
    (hedge : g.edges.get? e = some edge) (hs : edge.source = some s) (ht : edge.target = some t) :
    g.Joins e s t := by
  obtain ⟨_, _, label⟩ := edge
  subst hs ht
  exact ⟨label, hedge⟩

/-- A consistent graph without ports is indexed. -/
theorem Consistent.indexed {g : Graph} (h : g.Consistent) (hinPorts : g.inPorts = [])
    (houtPorts : g.outPorts = []) : g.Indexed where
  order_nodup := h.order_nodup
  mem_inEdges n e := by
    rw [h.ins.mem_iff, Option.bind_eq_some_iff]
    constructor
    · rintro ⟨edge, hedge, ht⟩
      obtain ⟨s, _, hs, _⟩ := h.exists_ends hinPorts houtPorts hedge
      exact ⟨s, joins_of_ends hedge hs ht⟩
    · rintro ⟨s, label, hedge⟩
      exact ⟨_, hedge, rfl⟩
  mem_outEdges n e := by
    rw [h.outs.mem_iff, Option.bind_eq_some_iff]
    constructor
    · rintro ⟨edge, hedge, hs⟩
      obtain ⟨_, t, _, ht⟩ := h.exists_ends hinPorts houtPorts hedge
      exact ⟨t, joins_of_ends hedge hs ht⟩
    · rintro ⟨t, label, hedge⟩
      exact ⟨_, hedge, rfl⟩
  inEdges_nodup := h.ins.nodup
  outEdges_nodup := h.outs.nodup

/-- In a consistent graph that passes verification, edges join nodes in order, and are listed
    where they do. -/
theorem Consistent.wired {g : Graph} (h : g.Consistent) (hverify : g.verify = .ok ()) :
    g.Wired := by
  obtain ⟨hinPorts, houtPorts, hmem⟩ := of_verify_eq_ok hverify
  refine ⟨h.indexed hinPorts houtPorts, fun e edge hedge => ?_⟩
  obtain ⟨s, t, hs, ht⟩ := h.exists_ends hinPorts houtPorts hedge
  exact ⟨s, hmem e edge hedge s (.inl hs), t, hmem e edge hedge t (.inr ht),
    joins_of_ends hedge hs ht⟩

end Graph

end Dataflow
