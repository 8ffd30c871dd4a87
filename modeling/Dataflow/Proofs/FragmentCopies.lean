import Dataflow.Proofs.Representation

/-!
# Copies of a fragment

A splice first puts copies of the fragment's nodes and edges into the graph, behind all that is
there, and only then finds out whether the fragment has an entry and an exit in its order. If it
has, the copies take the place of the node; if not, they stay, without a place in the order.

* `Graph.values_nodes_graft`, `Graph.values_edges_graft`, `Graph.graft_frame`: what the copies add
  to a graph, and what they leave alone;
* `Graph.Replaced`: what a splice that succeeds makes of the order;
* `Graph.Built.unchanged_iff_of_splice_error`: a splice that fails changes nothing, unless it has
  copied nodes by then. It may leave edges that do not pass verification
  (`Graph.splice_error_changes`).
-/

namespace Dataflow

namespace Arena

variable {name : String} {α β : Type}

theorem get?_eq_getElem? (a : Arena name α) (h : Handle name) : a.get? h = a.values[h.index]? := by
  rw [get?, values, Array.getElem?_toList]

theorem length_values (a : Arena name α) : a.values.length = a.size :=
  Array.length_toList

theorem values_push (a : Arena name α) (x : α) : (a.push x).values = a.values ++ [x] :=
  Array.toList_push

theorem values_foldl_push (l : List β) (make : β → α) (a : Arena name α) :
    (l.foldl (fun a x => a.push (make x)) a).values = a.values ++ l.map make := by
  induction l generalizing a with
  | nil => exact (List.append_nil _).symm
  | cons x l ih =>
    rw [List.foldl_cons, ih, values_push, List.append_assoc]
    rfl

/-- What slots that are there hold, one after the other. -/
theorem getElem?_filterMap_get? {a : Arena name α} {l : List (Handle name)}
    (hl : ∀ h ∈ l, h.index < a.size) (i : Nat) : (l.filterMap a.get?)[i]? = l[i]?.bind a.get? := by
  induction l generalizing i with
  | nil => rfl
  | cons h l ih =>
    obtain ⟨hh, hl⟩ := List.forall_mem_cons.1 hl
    obtain ⟨x, hx⟩ := exists_get?_of_lt hh
    rw [List.filterMap_cons_some hx]
    cases i with
    | zero => exact hx.symm
    | succ i => exact ih hl i

end Arena

namespace Graph

variable {g f : Graph} {n m : NodeId}

/-! ### Copied nodes and edges -/

/-- The ends and the label of the copy of an edge, if both its ends are in the order of `f`. -/
def copyEnds (g f : Graph) (edge : Edge) : Option (NodeId × NodeId × Option Label) := do
  return (← g.copyOf f (← edge.source), ← g.copyOf f (← edge.target), edge.label)

theorem copyEnds_eq_some_iff {edge : Edge} {ends : NodeId × NodeId × Option Label} :
    g.copyEnds f edge = some ends ↔
      ∃ s ∈ f.order, ∃ t ∈ f.order, edge.source = some s ∧ edge.target = some t ∧
        ends = (g.copyIn f s, g.copyIn f t, edge.label) := by
  obtain ⟨source, target, label⟩ := edge
  cases source with
  | none => simp [copyEnds]
  | some s =>
    cases target with
    | none => simp [copyEnds]
    | some t =>
      by_cases hs : s ∈ f.order <;> by_cases ht : t ∈ f.order <;>
        simp [copyEnds, copyOf_of_mem, copyOf_of_not_mem, hs, ht, eq_comm]

section AddEdges

variable (edges : List (NodeId × NodeId × Option Label)) (g : Graph)

/-- Edges added one after the other are put behind those that are there. -/
theorem values_foldl_addEdge :
    (edges.foldl (fun g (source, target, label) => g.addEdge source target label) g).edges.values =
      g.edges.values ++ edges.map fun (source, target, label) => ⟨source, target, label⟩ := by
  induction edges generalizing g with
  | nil => exact (List.append_nil _).symm
  | cons edge edges ih =>
    refine (ih _).trans ?_
    change (g.edges.push _).values ++ _ = _
    rw [Arena.values_push, List.append_assoc]
    rfl

/-- All that added edges change are the edges and where they are listed. -/
theorem foldl_addEdge_frame {g' : Graph}
    (h : edges.foldl (fun g (source, target, label) => g.addEdge source target label) g = g') :
    g'.nodes = g.nodes ∧ g'.order = g.order ∧ g'.removed = g.removed ∧ g'.entry = g.entry ∧
      g'.exit = g.exit ∧ g'.inPorts = g.inPorts ∧ g'.outPorts = g.outPorts := by
  induction edges generalizing g with
  | nil => exact h ▸ ⟨rfl, rfl, rfl, rfl, rfl, rfl, rfl⟩
  | cons edge edges ih => exact ih (g.addEdge edge.1 edge.2.1 edge.2.2) h

/-- Nodes that no added edge touches have the edges that they had. -/
theorem foldl_addEdge_get (h : ∀ edge ∈ edges, edge.1 ≠ m ∧ edge.2.1 ≠ m) :
    (edges.foldl (fun g (source, target, label) => g.addEdge source target label) g).inEdges.get m =
        g.inEdges.get m ∧
      (edges.foldl (fun g (source, target, label) => g.addEdge source target label) g).outEdges.get
        m = g.outEdges.get m := by
  induction edges generalizing g with
  | nil => exact ⟨rfl, rfl⟩
  | cons edge edges ih =>
    rw [List.forall_mem_cons] at h
    obtain ⟨hin, hout⟩ := ih (g.addEdge edge.1 edge.2.1 edge.2.2) h.2
    refine ⟨hin.trans ?_, hout.trans ?_⟩
    · rw [addEdge, SideTable.get_modify, if_neg h.1.2]
    · rw [addEdge, SideTable.get_modify, if_neg h.1.1]

end AddEdges

section Graft

variable (g f : Graph) (parent : Option NodeId)

theorem graft_eq : g.graft f parent = (f.edges.values.filterMap (g.copyEnds f)).foldl
    (fun g (source, target, label) => g.addEdge source target label) { g with
      nodes := (f.order.filterMap f.nodes.get?).foldl
        (fun nodes node => nodes.push (g.copyNode f parent node)) g.nodes } := rfl

/-- The copied nodes come behind those that are there. -/
theorem values_nodes_graft : (g.graft f parent).nodes.values =
    g.nodes.values ++ (f.order.filterMap f.nodes.get?).map (g.copyNode f parent) := by
  rw [(foldl_addEdge_frame _ _ (graft_eq g f parent).symm).1]
  exact Arena.values_foldl_push _ _ _

/-- The copied edges come behind those that are there. -/
theorem values_edges_graft : (g.graft f parent).edges.values = g.edges.values ++
    (f.edges.values.filterMap (g.copyEnds f)).map fun (source, target, label) =>
      ⟨source, target, label⟩ := by
  rw [graft_eq, values_foldl_addEdge]

/-- All that copies change are the nodes, the edges and where these are listed. -/
theorem graft_frame : (g.graft f parent).order = g.order ∧
    (g.graft f parent).removed = g.removed ∧ (g.graft f parent).entry = g.entry ∧
    (g.graft f parent).exit = g.exit ∧ (g.graft f parent).inPorts = g.inPorts ∧
    (g.graft f parent).outPorts = g.outPorts :=
  (foldl_addEdge_frame _ _ (graft_eq g f parent).symm).2

variable {g f parent}

/-- A node that was there has the edges that it had. -/
theorem graft_get (hm : m.index < g.nodes.size) :
    (g.graft f parent).inEdges.get m = g.inEdges.get m ∧
      (g.graft f parent).outEdges.get m = g.outEdges.get m := by
  refine foldl_addEdge_get _ _ fun copied hcopied => ?_
  obtain ⟨edge, _, hends⟩ := List.mem_filterMap.1 hcopied
  obtain ⟨s, _, t, _, _, _, rfl⟩ := copyEnds_eq_some_iff.1 hends
  -- The ends of a copied edge are copies, which come after all nodes that were there.
  exact ⟨copyIn_ne f s hm, copyIn_ne f t hm⟩

/-- Without nodes in order there is nothing to copy. -/
theorem graft_of_order_eq_nil (hf : f.order = []) : g.graft f parent = g := by
  have hedges : f.edges.values.filterMap (g.copyEnds f) = [] := by
    refine List.filterMap_eq_nil_iff.2 fun edge _ => Option.eq_none_iff_forall_ne_some.2 ?_
    intro ends hends
    obtain ⟨s, hs, _⟩ := copyEnds_eq_some_iff.1 hends
    rw [hf] at hs
    cases hs
  rw [graft_eq, hf, hedges]
  rfl

theorem get?_nodes_graft (hm : m.index < g.nodes.size) :
    (g.graft f parent).nodes.get? m = g.nodes.get? m := by
  rw [Arena.get?_eq_getElem?, values_nodes_graft, List.getElem?_append_left
    (by rwa [Arena.length_values]), Arena.get?_eq_getElem?]

theorem Consistent.get?_nodes_graft_copyIn (hf : f.Consistent) (hm : m ∈ f.order) :
    (g.graft f parent).nodes.get? (g.copyIn f m) =
      (f.nodes.get? m).map (g.copyNode f parent) := by
  rw [Arena.get?_eq_getElem?, values_nodes_graft, copyIn, ← Arena.length_values,
    List.getElem?_append_right (Nat.le_add_right _ _), Nat.add_sub_cancel_left, List.getElem?_map,
    Arena.getElem?_filterMap_get? hf.allocated, List.getElem?_idxOf hm]
  rfl

theorem get?_edges_graft {e : EdgeId} (he : e.index < g.edges.size) :
    (g.graft f parent).edges.get? e = g.edges.get? e := by
  rw [Arena.get?_eq_getElem?, values_edges_graft, List.getElem?_append_left
    (by rwa [Arena.length_values]), Arena.get?_eq_getElem?]

/-- An edge of a grafted graph was there or is the copy of one of the fragment. -/
theorem edges_graft_cases {e : EdgeId} {edge : Edge}
    (h : (g.graft f parent).edges.get? e = some edge) : g.edges.get? e = some edge ∨
      ∃ original ∈ f.edges.values, g.copyEnds f original ≠ none := by
  rw [Arena.get?_eq_getElem?, values_edges_graft, List.getElem?_append] at h
  split at h
  · exact .inl (by rwa [Arena.get?_eq_getElem?])
  · obtain ⟨ends, hends, _⟩ := List.mem_map.1 (List.mem_of_getElem? h)
    obtain ⟨original, horiginal, hcopy⟩ := List.mem_filterMap.1 hends
    exact .inr ⟨original, horiginal, hcopy ▸ Option.some_ne_none _⟩

end Graft

/-! ### Splices that succeed -/

/-- A node that gives its place to others does so where it stands. -/
theorem order_substitute {before after nodes : List NodeId} (entry exit : NodeId)
    (h : g.order = before ++ n :: after) (hnodup : g.order.Nodup) :
    (g.substitute n nodes entry exit).order = before ++ nodes ++ after := by
  rw [h] at hnodup
  obtain ⟨hafter, hbefore⟩ := List.nodup_cons.1 (List.perm_middle.nodup_iff.1 hnodup)
  rw [List.mem_append, not_or] at hafter
  change g.order.flatMap (inPlaceOf n nodes) = _
  rw [h, List.flatMap_append, List.flatMap_cons, flatMap_inPlaceOf_of_not_mem hafter.1,
    flatMap_inPlaceOf_of_not_mem hafter.2, inPlaceOf_self, List.append_assoc]

theorem removed_substitute (g : Graph) (n : NodeId) (nodes : List NodeId) (entry exit m : NodeId) :
    (g.substitute n nodes entry exit).removed.get m = if n = m then true else g.removed.get m :=
  SideTable.get_set _ _ _ _

/-- The node `n` of `g` was removed, and gave its place in the order to nodes that are new. -/
structure Replaced (g : Graph) (n : NodeId) (inserted : List NodeId) (g' : Graph) : Prop where
  mem : n ∈ g.order
  order : ∀ before after, g.order = before ++ n :: after → g'.order = before ++ inserted ++ after
  ne_nil : inserted ≠ []
  fresh : ∀ m ∈ inserted, g.nodes.size ≤ m.index
  size_le : g.nodes.size ≤ g'.nodes.size
  removed : ∀ m, g'.removed.get m = if n = m then true else g.removed.get m

/-- A splice that succeeds replaces the node. -/
theorem Built.replaced_of_splice {g' : Graph} {inserted : List NodeId} (hg : g.Built) (hf : f.Built)
    (h : g.splice n f = (.ok inserted, g')) : g.Replaced n inserted g' := by
  obtain ⟨err, _, heq⟩ | ⟨hn, _, _, entry, exit, _, _, ⟨_, heq⟩ | ⟨hentry, _, heq⟩⟩ :=
    splice_cases g n f
  · cases h.symm.trans heq
  · cases h.symm.trans heq
  · cases h.symm.trans heq
    generalize (g.nodes.get? n).bind Node.parent = parent
    obtain ⟨_, horder, hsize⟩ := hg.consistent.graft hf.consistent parent
    obtain ⟨_, hremoved, _⟩ := graft_frame g f parent
    refine ⟨hn, fun before after hbefore => ?_, ?_, fun m hm => (mem_upcoming.1 hm).1, ?_,
      fun m => ?_⟩
    · exact order_substitute _ _ (horder.trans hbefore) (horder ▸ hg.consistent.order_nodup)
    · rw [copies_eq g hf.consistent.order_nodup]
      exact List.ne_nil_of_mem (List.mem_map_of_mem hentry)
    · exact hsize ▸ Nat.le_add_right _ _
    · rw [removed_substitute, hremoved]

/-! ### Splices that fail -/

/-- A graph that passed verification passes it with copies in it if no edge was copied: the ends of
    a copied edge are not in order. -/
theorem Intact.verify_graft_iff (hg : g.Intact) (hverify : g.verify = .ok ())
    (parent : Option NodeId) : (g.graft f parent).verify = .ok () ↔
      ∀ edge ∈ f.edges.values, g.copyEnds f edge = none := by
  obtain ⟨hin, hout, hends, hentry⟩ := hg.verify_eq_ok_iff.1 hverify
  obtain ⟨horder, hremoved, hentry', _, hin', hout'⟩ := graft_frame g f parent
  constructor
  · intro hok edge hedge
    by_contra hsome
    obtain ⟨ends, hcopy⟩ := Option.ne_none_iff_exists'.1 hsome
    obtain ⟨s, _, t, _, _, _, rfl⟩ := copyEnds_eq_some_iff.1 hcopy
    -- The copy has a place among the edges, and its source is a copy.
    obtain ⟨i, hi⟩ := List.mem_iff_getElem?.1 (List.mem_filterMap.2 ⟨edge, hedge, hcopy⟩)
    have hget : (g.graft f parent).edges.get? ⟨g.edges.size + i⟩ =
        some ⟨g.copyIn f s, g.copyIn f t, edge.label⟩ := by
      rw [Arena.get?_eq_getElem?, values_edges_graft, ← Arena.length_values,
        List.getElem?_append_right (Nat.le_add_right _ _), Nat.add_sub_cancel_left,
        List.getElem?_map, hi]
      rfl
    obtain ⟨_, _, hends', _⟩ := ((hg.graft f parent).1.verify_eq_ok_iff).1 hok
    have hmem := hends' _ _ hget _ (.inl rfl)
    rw [horder] at hmem
    exact copyIn_ne f s (hg.allocated _ hmem) rfl
  · intro hnone
    refine (hg.graft f parent).1.verify_eq_ok_iff.2 ⟨hin'.trans hin, hout'.trans hout,
      fun e edge hedge k hk => ?_, fun k hk => ?_⟩
    · rw [horder]
      rcases edges_graft_cases hedge with hold | ⟨original, horiginal, hcopy⟩
      · exact hends e edge hold k hk
      · exact absurd (hnone original horiginal) hcopy
    · have hlive := hentry k (hentry'.symm.trans hk)
      simp only [isLive, Arena.contains, Bool.and_eq_true, decide_eq_true_eq] at hlive ⊢
      refine ⟨Nat.lt_of_lt_of_le hlive.1 ?_, ?_⟩
      · change g.nodes.size ≤ (g.graft f parent).nodes.size
        rw [← Arena.length_values, ← Arena.length_values, values_nodes_graft, List.length_append]
        exact Nat.le_add_right _ _
      · rw [hremoved]
        exact hlive.2

/-- A splice that fails leaves the graph as it was, unless an end of the fragment is not in its
    order and there are nodes in it. Then the copies of these nodes are left, and of the edges
    between them: all else is as it was, but a graph that passed verification no longer does if
    there is such an edge. -/
theorem Built.unchanged_iff_of_splice_error {g f g' : Graph} (hg : g.Built) (hf : f.Built)
    {n : NodeId} {err : Error} (h : g.splice n f = (.error err, g')) :
    (g' = g ↔ err ≠ .fragmentEndsUnordered ∨ f.order = []) ∧
    (err = .fragmentEndsUnordered → ∃ m, (f.entry = some m ∨ f.exit = some m) ∧ m ∉ f.order) ∧
    (g'.order = g.order ∧ g'.removed = g.removed ∧ g'.entry = g.entry ∧ g'.exit = g.exit ∧
      g'.inPorts = g.inPorts ∧ g'.outPorts = g.outPorts) ∧
    (∀ m : NodeId, m.index < g.nodes.size → g'.nodes.get? m = g.nodes.get? m ∧
      g'.inEdges.get m = g.inEdges.get m ∧ g'.outEdges.get m = g.outEdges.get m) ∧
    (∀ e : EdgeId, e.index < g.edges.size → g'.edges.get? e = g.edges.get? e) ∧
    (g.verify = .ok () → (g'.verify = .ok () ↔ err ≠ .fragmentEndsUnordered ∨
      ∀ edge ∈ f.edges.values, ∀ s ∈ f.order, ∀ t ∈ f.order,
        ¬(edge.source = some s ∧ edge.target = some t))) := by
  rcases splice_cases g n f with ⟨err', herr, heq⟩ |
    ⟨_, _, _, entry, exit, hentry, hexit, ⟨hends, heq⟩ | ⟨_, _, heq⟩⟩
  · -- An error that is found before anything is copied.
    rw [h] at heq
    cases heq
    exact ⟨⟨fun _ => .inl herr, fun _ => rfl⟩, fun habsurd => absurd habsurd herr,
      ⟨rfl, rfl, rfl, rfl, rfl, rfl⟩, fun _ _ => ⟨rfl, rfl, rfl⟩, fun _ _ => rfl,
      fun hverify => ⟨fun _ => .inl herr, fun _ => hverify⟩⟩
  · -- The one that is found after the fragment was copied.
    rw [h] at heq
    cases heq
    generalize (g.nodes.get? n).bind Node.parent = parent
    have hsize := (hg.consistent.graft hf.consistent parent).2.2
    refine ⟨?unchanged, fun _ => ?ends, graft_frame g f parent,
      fun m hm => ⟨get?_nodes_graft hm, graft_get hm⟩, fun e he => get?_edges_graft he,
      fun hverify => ?verify⟩
    case unchanged =>
      constructor
      · intro hsame
        rw [hsame, Nat.left_eq_add, List.length_eq_zero_iff] at hsize
        exact .inr hsize
      · rintro (hne | hnil)
        · exact absurd rfl hne
        · exact graft_of_order_eq_nil hnil
    case ends =>
      rcases hends with hentry' | hexit'
      · exact ⟨entry, .inl hentry, hentry'⟩
      · exact ⟨exit, .inr hexit, hexit'⟩
    case verify =>
      rw [hg.intact.verify_graft_iff hverify, or_iff_right (not_not.2 rfl)]
      refine forall₂_congr fun edge _ => ?_
      rw [Option.eq_none_iff_forall_ne_some]
      constructor
      · rintro hnone s hs t ht ⟨hsource, htarget⟩
        exact hnone _ (copyEnds_eq_some_iff.2 ⟨s, hs, t, ht, hsource, htarget, rfl⟩)
      · intro hnot ends hcopy
        obtain ⟨s, hs, t, ht, hsource, htarget, _⟩ := copyEnds_eq_some_iff.1 hcopy
        exact hnot s hs t ht ⟨hsource, htarget⟩
  · rw [h] at heq
    cases heq

/-- One node with an edge to itself. -/
def sampleSpinning : Graph :=
  (({} : Graph).addNode { kind := .block }).addEdge ⟨0⟩ ⟨0⟩ none

/-- Two nodes that no edge joins, with an entry that is not there. -/
def sampleLoose : Graph :=
  { (({} : Graph).addNode { kind := .nop }).addNode { kind := .nop } with
    entry := some ⟨7⟩, exit := some ⟨1⟩ }

/-- Copies that no edge joins are left, and pass verification. -/
theorem unchanged_iff_of_splice_error_loose : ∃ g',
    sampleSpinning.splice ⟨0⟩ sampleLoose = (.error .fragmentEndsUnordered, g') ∧
    g' ≠ sampleSpinning ∧ g'.order = sampleSpinning.order ∧ g'.verify = .ok () := by
  obtain ⟨hsame, _, ⟨horder, _⟩, _, _, hverify⟩ := Built.unchanged_iff_of_splice_error
    (.addEdge _ _ _ (.addNode _ .empty)) (.withEnds _ _ (.addNode _ (.addNode _ .empty)))
    (g := sampleSpinning) (f := sampleLoose) (n := ⟨0⟩) rfl
  exact ⟨_, rfl, fun heq => absurd (hsame.1 heq) (by decide), horder,
    (hverify rfl).2 (.inr fun edge hedge => absurd hedge List.not_mem_nil)⟩

/-- A splice that fails after it has copied two nodes and the edge between them: the graph is not
    what it was, and no longer passes verification. -/
theorem splice_error_changes : sampleSpinning.Built ∧ sampleUnfinished.Built ∧
    sampleSpinning.verify = .ok () ∧ ∃ g',
      sampleSpinning.splice ⟨0⟩ sampleUnfinished = (.error .fragmentEndsUnordered, g') ∧
      g' ≠ sampleSpinning ∧ g'.verify ≠ .ok () :=
  ⟨.addEdge _ _ _ (.addNode _ .empty),
    .withEnds _ _ (.addEdge _ _ _ (.addNode _ (.addNode _ .empty))), rfl, _, rfl, by decide,
    by decide⟩

end Graph

end Dataflow
