import Dataflow.Proofs.FragmentCopies

/-!
# Paths of a spliced graph

A splice puts a fragment where a node was. Between the nodes that stay, the control can then go the
ways it could go before, except that where it went through the node it goes through the fragment,
from its entry to its exit, by any of the ways there are, and by another one each time.

* `Graph.Path`: the ways from one node to another;
* `Graph.Rerouted`: a way before the splice, and one that it can become;
* `Graph.Insertable`: the fragments that can be spliced;
* `Graph.Insertable.splice_exact`: what a splice of such a fragment does to a graph.
-/

namespace Dataflow

/-- The edge with its ends moved elsewhere. -/
def Edge.mapEnds (source target : NodeId → NodeId) (edge : Edge) : Edge :=
  ⟨edge.source.map source, edge.target.map target, edge.label⟩

/-- Where an edge that was moved joins two nodes, it joined two nodes before. -/
theorem Edge.map_mapEnds_eq_some_iff {source target : NodeId → NodeId} {edge : Option Edge}
    {s t : NodeId} {label : Option Label} :
    edge.map (Edge.mapEnds source target) = some ⟨some s, some t, label⟩ ↔
      ∃ s₀ t₀, edge = some ⟨some s₀, some t₀, label⟩ ∧ s = source s₀ ∧ t = target t₀ := by
  constructor
  · intro h
    obtain ⟨⟨_, _, _⟩, rfl, hmap⟩ := Option.map_eq_some_iff.1 h
    obtain ⟨hs, ht, rfl⟩ := Edge.mk.injEq .. ▸ hmap
    obtain ⟨s₀, rfl, rfl⟩ := Option.map_eq_some_iff.1 hs
    obtain ⟨t₀, rfl, rfl⟩ := Option.map_eq_some_iff.1 ht
    exact ⟨s₀, t₀, rfl, rfl, rfl⟩
  · rintro ⟨s₀, t₀, rfl, rfl, rfl⟩
    rfl

namespace Graph

variable {g g' f : Graph} {n m : NodeId}

/-! ### Edges between nodes in order -/

/-- Edges begin and end at nodes in order only. -/
def Tied (g : Graph) : Prop :=
  ∀ edge ∈ g.edges.values, (∀ n ∈ edge.source, n ∈ g.order) ∧ ∀ n ∈ edge.target, n ∈ g.order

instance (g : Graph) : Decidable g.Tied :=
  inferInstanceAs (Decidable (∀ edge ∈ g.edges.values, _))

theorem Tied.joins {e : EdgeId} {s t : NodeId} (hg : g.Tied) (h : g.Joins e s t) :
    s ∈ g.order ∧ t ∈ g.order := by
  obtain ⟨label, hedge⟩ := h
  rw [Arena.get?_eq_getElem?] at hedge
  obtain ⟨hs, ht⟩ := hg _ (List.mem_of_getElem? hedge)
  exact ⟨hs s rfl, ht t rfl⟩

/-! ### What a substitution makes of edges -/

theorem if_eq_map_moved (n other : NodeId) (place : Option NodeId) :
    (if place = some n then some other else place) = place.map (moved n other) := by
  split
  · next h => rw [h, Option.map_some, moved_self]
  · next h => exact (map_moved_of_ne other h).symm

/-- Only the ends of edges change when a node gives them to others. -/
theorem Consistent.values_edges_substitute (hg : g.Consistent) (n entry exit : NodeId)
    (nodes : List NodeId) : (g.substitute n nodes entry exit).edges.values =
      g.edges.values.map (Edge.mapEnds (moved n exit) (moved n entry)) := by
  refine List.ext_getElem? fun i => ?_
  rw [List.getElem?_map]
  change (g.substitute n nodes entry exit).edges.values[(⟨i⟩ : EdgeId).index]? =
    g.edges.values[(⟨i⟩ : EdgeId).index]?.map _
  rw [← Arena.get?_eq_getElem?, ← Arena.get?_eq_getElem?]
  exact edges_substitute_of_listed (hg.ins.nodup n) (hg.outs.nodup n) (hg.ins.mem_iff n)
    (hg.outs.mem_iff n) nodes entry exit ⟨i⟩

/-! ### Fragments that can be spliced -/

/-- A fragment without ports, whose edges, entry and exit are all at nodes in its order. -/
structure Insertable (f : Graph) (entry exit : NodeId) : Prop where
  built : f.Built
  tied : f.Tied
  inPorts : f.inPorts = []
  outPorts : f.outPorts = []
  entry_eq : f.entry = some entry
  exit_eq : f.exit = some exit
  entry_mem : entry ∈ f.order
  exit_mem : exit ∈ f.order

namespace Insertable

variable {entry exit : NodeId} (hf : f.Insertable entry exit)
include hf

/-- All edges of such a fragment are copied. -/
theorem copied_edges (g : Graph) :
    ((f.edges.values.filterMap (g.copyEnds f)).map fun (source, target, label) =>
      ⟨some source, some target, label⟩) =
        f.edges.values.map (Edge.mapEnds (g.copyIn f) (g.copyIn f)) := by
  rw [List.map_filterMap, ← List.filterMap_eq_map]
  refine List.filterMap_congr fun edge hedge => ?_
  obtain ⟨i, hi⟩ := List.mem_iff_getElem?.1 hedge
  have hget : f.edges.get? ⟨i⟩ = some edge := (Arena.get?_eq_getElem? _ _).trans hi
  obtain ⟨s, t, hs, ht⟩ := hf.built.consistent.exists_ends hf.inPorts hf.outPorts hget
  obtain ⟨hsource, htarget⟩ := hf.tied edge hedge
  rw [copyEnds_eq_some_iff.2 ⟨s, hsource s hs, t, htarget t ht, hs, ht, rfl⟩]
  simp [Edge.mapEnds, hs, ht]

/-- All that the splice of such a fragment does. -/
theorem splice_eq (hg : g.Intact) (hn : n ∈ g.order) :
    g.splice n f = (.ok (g.copies f),
      (g.graft f ((g.nodes.get? n).bind Node.parent)).substitute n (g.copies f)
        (g.copyIn f entry) (g.copyIn f exit)) := by
  simp only [splice, hg.isLive_eq hn, hf.inPorts, hf.outPorts, hf.entry_eq, hf.exit_eq,
    not_not.2 hn, copyOf_of_mem g hf.entry_mem, copyOf_of_mem g hf.exit_mem]
  rfl

/-- The edges after the splice: each one keeps its place and its label, and the copied ones come
    behind. -/
theorem values_edges_splice (hg : g.Consistent) (hn : n ∈ g.order) (parent : Option NodeId)
    (nodes : List NodeId) :
    ((g.graft f parent).substitute n nodes (g.copyIn f entry) (g.copyIn f exit)).edges.values =
      g.edges.values.map (Edge.mapEnds (moved n (g.copyIn f exit)) (moved n (g.copyIn f entry))) ++
        f.edges.values.map (Edge.mapEnds (g.copyIn f) (g.copyIn f)) := by
  have hcopy : ∀ other m, moved n other (g.copyIn f m) = g.copyIn f m := fun other m =>
    moved_of_ne other (copyIn_ne f m (hg.allocated n hn))
  rw [(hg.graft hf.built.consistent parent).1.values_edges_substitute, values_edges_graft,
    List.map_append, hf.copied_edges, List.map_map]
  congr 1
  refine List.map_congr_left fun edge _ => ?_
  simp [Edge.mapEnds, Function.comp_def, hcopy]

end Insertable

/-! ### Paths -/

/-- A path from one node to another: the edges that it takes, each with the node that it leads
    to. -/
inductive Path (g : Graph) : NodeId → List (EdgeId × NodeId) → NodeId → Prop
  | nil (a : NodeId) : Path g a [] a
  | cons {a k b : NodeId} {e : EdgeId} {steps : List (EdgeId × NodeId)} : g.Joins e a k →
    Path g k steps b → Path g a ((e, k) :: steps) b

theorem Path.append {a k b : NodeId} {steps steps' : List (EdgeId × NodeId)}
    (h : g.Path a steps k) (h' : g.Path k steps' b) : g.Path a (steps ++ steps') b := by
  induction h with
  | nil => exact h'
  | cons hj _ ih => exact .cons hj (ih h')

/-- The step of a spliced graph that copies a step of the fragment. -/
def copyStep (g f : Graph) (step : EdgeId × NodeId) : EdgeId × NodeId :=
  (⟨g.edges.size + step.1.index⟩, g.copyIn f step.2)

/-- What can become of a path when `f` is spliced into `g` for the node `n`: every step to `n` leads
    to the copy of the entry, and is followed by the copies of a path to the exit. -/
inductive Rerouted (g f : Graph) (n entry exit : NodeId) :
    List (EdgeId × NodeId) → List (EdgeId × NodeId) → Prop
  | nil : Rerouted g f n entry exit [] []
  | pass {e : EdgeId} {k : NodeId} {steps steps' : List (EdgeId × NodeId)} : k ≠ n →
    Rerouted g f n entry exit steps steps' →
    Rerouted g f n entry exit ((e, k) :: steps) ((e, k) :: steps')
  | visit {e : EdgeId} {through steps steps' : List (EdgeId × NodeId)} :
    f.Path entry through exit → Rerouted g f n entry exit steps steps' →
    Rerouted g f n entry exit ((e, n) :: steps)
      ((e, g.copyIn f entry) :: (through.map (g.copyStep f) ++ steps'))

section Paths

variable {entry exit a b : NodeId} {e : EdgeId} {steps steps' : List (EdgeId × NodeId)}
  (hedges : g'.edges.values =
    g.edges.values.map (Edge.mapEnds (moved n (g.copyIn f exit)) (moved n (g.copyIn f entry))) ++
      f.edges.values.map (Edge.mapEnds (g.copyIn f) (g.copyIn f)))
include hedges

/-- An edge after the splice is one that was there, or a copy. -/
theorem joins_iff_of_edges {s t : NodeId} : g'.Joins e s t ↔
    (∃ s₀ t₀, g.Joins e s₀ t₀ ∧ s = moved n (g.copyIn f exit) s₀ ∧
      t = moved n (g.copyIn f entry) t₀) ∨
    ∃ d s₀ t₀, e = ⟨g.edges.size + d.index⟩ ∧ f.Joins d s₀ t₀ ∧ s = g.copyIn f s₀ ∧
      t = g.copyIn f t₀ := by
  simp only [Joins, Arena.get?_eq_getElem?, hedges]
  by_cases he : e.index < g.edges.size
  · -- An edge that was there has a smaller handle than all copies.
    rw [List.getElem?_append_left (by rwa [List.length_map, Arena.length_values]),
      List.getElem?_map]
    simp only [Edge.map_mapEnds_eq_some_iff]
    constructor
    · rintro ⟨label, s₀, t₀, hedge, hs, ht⟩
      exact .inl ⟨s₀, t₀, ⟨label, hedge⟩, hs, ht⟩
    · rintro (⟨s₀, t₀, ⟨label, hedge⟩, hs, ht⟩ | ⟨d, _, _, rfl, _⟩)
      · exact ⟨label, s₀, t₀, hedge, hs, ht⟩
      · exact absurd he (Nat.not_lt.2 (Nat.le_add_right _ _))
  · have hle := Nat.not_lt.1 he
    rw [List.getElem?_append_right (by rwa [List.length_map, Arena.length_values]),
      List.getElem?_map, List.length_map, Arena.length_values]
    simp only [Edge.map_mapEnds_eq_some_iff]
    constructor
    · rintro ⟨label, s₀, t₀, hedge, hs, ht⟩
      exact .inr ⟨⟨e.index - g.edges.size⟩, s₀, t₀,
        Handle.index_inj.1 (Nat.add_sub_cancel' hle).symm, ⟨label, hedge⟩, hs, ht⟩
    · rintro (⟨s₀, t₀, ⟨label, hedge⟩, _⟩ | ⟨d, s₀, t₀, rfl, ⟨label, hedge⟩, hs, ht⟩)
      · rw [← Arena.length_values] at hle
        rw [List.getElem?_eq_none hle] at hedge
        cases hedge
      · refine ⟨label, s₀, t₀, ?_, hs, ht⟩
        rw [← hedge]
        exact congrArg (f.edges.values[·]?) (Nat.add_sub_cancel_left _ _)

/-- The copy of a path. -/
theorem Path.copy (h : f.Path a steps b) :
    g'.Path (g.copyIn f a) (steps.map (g.copyStep f)) (g.copyIn f b) := by
  induction h with
  | nil a => exact .nil _
  | cons hj _ ih =>
    exact .cons ((joins_iff_of_edges hedges).2 (.inr ⟨_, _, _, rfl, hj, rfl, rfl⟩)) ih

/-- A path can be rerouted, whatever the ways through the fragment. -/
theorem Path.reroute (h : g.Path a steps b) (hb : b ≠ n)
    (hsteps : Rerouted g f n entry exit steps steps') :
    g'.Path (moved n (g.copyIn f exit) a) steps' b := by
  have hold {e s t} (hj : g.Joins e s t) :
      g'.Joins e (moved n (g.copyIn f exit) s) (moved n (g.copyIn f entry) t) :=
    (joins_iff_of_edges hedges).2 (.inl ⟨s, t, hj, rfl, rfl⟩)
  induction h generalizing steps' with
  | nil b =>
    cases hsteps
    rw [moved_of_ne _ hb]
    exact .nil b
  | cons hj _ ih =>
    have hj := hold hj
    cases hsteps with
    | pass hk hsteps =>
      have hrest := ih hb hsteps
      rw [moved_of_ne _ hk] at hj hrest
      exact .cons hj hrest
    | visit hthrough hsteps =>
      have hrest := ih hb hsteps
      rw [moved_self] at hj hrest
      exact .cons hj ((hthrough.copy hedges).append hrest)

/-- A path after the splice comes from one before. This is about paths from nodes that stay; on the
    way, the path may be inside the fragment, and then what is left of it there comes first. -/
theorem Path.rerouted (hg : g.Tied) (halloc : ∀ m ∈ g.order, m.index < g.nodes.size)
    (hf : f.Tied) (hentry : entry ∈ f.order)
    (h : g'.Path a steps' b) (hb : b ∈ g.order) (hbn : b ≠ n) :
    (a ∈ g.order → a ≠ n → ∃ steps, g.Path a steps b ∧ Rerouted g f n entry exit steps steps') ∧
    ∀ m ∈ f.order, a = g.copyIn f m → ∃ through steps rest, f.Path m through exit ∧
      g.Path n steps b ∧ Rerouted g f n entry exit steps rest ∧
      steps' = through.map (g.copyStep f) ++ rest := by
  -- No copy is one of the nodes that were there.
  have hfresh : ∀ k ∈ g.order, ∀ m, k ≠ g.copyIn f m := fun k hk m =>
    (copyIn_ne f m (halloc k hk)).symm
  induction h with
  | nil b =>
    exact ⟨fun _ _ => ⟨[], .nil b, .nil⟩, fun m _ heq => absurd heq (hfresh b hb m)⟩
  | @cons a k b e steps' hj _ ih =>
    obtain ⟨hstay, hinside⟩ := ih hb hbn
    -- An edge that was there leads to a node that stays, or into the fragment.
    have hold : ∀ s₀ t₀, g.Joins e s₀ t₀ → k = moved n (g.copyIn f entry) t₀ →
        ∃ steps, g.Path s₀ steps b ∧ Rerouted g f n entry exit steps ((e, k) :: steps') := by
      intro s₀ t₀ hj₀ hk
      by_cases ht : t₀ = n
      · subst ht
        rw [moved_self] at hk
        subst hk
        obtain ⟨through, steps, rest, hthrough, hpath, hrest, rfl⟩ := hinside entry hentry rfl
        exact ⟨_, .cons hj₀ hpath, .visit hthrough hrest⟩
      · rw [moved_of_ne _ ht] at hk
        subst hk
        obtain ⟨steps, hpath, hrest⟩ := hstay (hg.joins hj₀).2 ht
        exact ⟨_, .cons hj₀ hpath, .pass ht hrest⟩
    rcases (joins_iff_of_edges hedges).1 hj with
      ⟨s₀, t₀, hj₀, hs, ht⟩ | ⟨d, s₀, t₀, rfl, hj₀, rfl, rfl⟩
    · constructor
      · intro ha _
        have hne : s₀ ≠ n := by
          rintro rfl
          rw [moved_self] at hs
          exact hfresh a ha exit hs
        rw [moved_of_ne _ hne] at hs
        exact hs ▸ hold s₀ t₀ hj₀ ht
      · rintro m hm rfl
        have hs₀ : s₀ = n := by
          by_contra hne
          rw [moved_of_ne _ hne] at hs
          exact hfresh s₀ (hg.joins hj₀).1 m hs.symm
        rw [hs₀, moved_self] at hs
        obtain rfl := copyIn_injOn hm hs
        obtain ⟨steps, hpath, hrest⟩ := hold s₀ t₀ hj₀ ht
        exact ⟨[], steps, _, .nil _, hs₀ ▸ hpath, hrest, rfl⟩
    · constructor
      · exact fun ha _ => absurd rfl (hfresh _ ha s₀)
      · intro m hm hcopy
        obtain rfl := copyIn_injOn hm hcopy.symm
        obtain ⟨through, steps, rest, hthrough, hpath, hrest, rfl⟩ :=
          hinside t₀ (hf.joins hj₀).2 rfl
        exact ⟨(d, t₀) :: through, steps, rest, .cons hj₀ hthrough, hpath, hrest, rfl⟩

end Paths

/-! ### All that a splice does -/

/-- Which nodes are live once copies have taken the place of one. -/
theorem Intact.isLive_substitute_graft_iff (hg : g.Intact) (hf : f.Consistent) (hn : n ∈ g.order)
    (parent : Option NodeId) (nodes : List NodeId) (entry exit : NodeId) :
    ((g.graft f parent).substitute n nodes entry exit).isLive m = true ↔
      g.isLive m = true ∧ m ≠ n ∨ m ∈ g.upcoming f.order.length := by
  have hsize : (g.graft f parent).nodes.items.size = g.nodes.items.size + f.order.length :=
    (hg.toConsistent.graft hf parent).2.2
  have hnsize : n.index < g.nodes.items.size := hg.allocated n hn
  simp only [isLive, removed_substitute, (hg.graft f parent).2, mem_upcoming, Arena.size,
    Arena.contains, Bool.and_eq_true, decide_eq_true_eq, Bool.not_eq_true']
  change m.index < (g.graft f parent).nodes.items.size ∧ _ ↔ _
  rw [hsize]
  by_cases hm : m.index < g.nodes.items.size
  · by_cases hnm : n = m
    · simp [hnm, Nat.not_le.2 hm]
    · simp [hnm, hm, Nat.not_le.2 hm, Nat.lt_add_right _ hm, Ne.symm hnm]
  · have hnm : n ≠ m := fun heq => hm (heq ▸ hnsize)
    rw [if_neg hnm, hg.removed_eq_false (Nat.not_lt.1 hm)]
    simp only [and_true]
    omega

/-- A splice puts copies of the fragment's nodes in place of the node, and changes nothing else.
    Edges keep their place and label: those into the node enter the copy of the fragment's entry,
    those out of it leave the copy of its exit, and the copies of the fragment's edges come behind
    them. Between nodes that stay there are the paths that there were, with a path through the
    fragment for each visit of the node. -/
theorem Insertable.splice_exact {g f : Graph} {n entry exit : NodeId} (hg : g.Built)
    (htied : g.Tied) (hn : n ∈ g.order) (hf : f.Insertable entry exit) :
    ∃ g', g.splice n f = (.ok (f.order.map (g.copyIn f)), g') ∧
      f.order.map (g.copyIn f) = g.upcoming f.order.length ∧
      (∃ before after, g.order = before ++ n :: after ∧
        g'.order = before ++ f.order.map (g.copyIn f) ++ after) ∧
      (∀ m, g'.isLive m = true ↔ g.isLive m = true ∧ m ≠ n ∨ m ∈ f.order.map (g.copyIn f)) ∧
      (∀ m : NodeId, m.index < g.nodes.size → g'.nodes.get? m = g.nodes.get? m) ∧
      (∀ m ∈ f.order, g'.nodes.get? (g.copyIn f m) =
        (f.nodes.get? m).map (g.copyNode f ((g.nodes.get? n).bind Node.parent))) ∧
      g'.edges.values =
        g.edges.values.map
            (Edge.mapEnds (moved n (g.copyIn f exit)) (moved n (g.copyIn f entry))) ++
          f.edges.values.map (Edge.mapEnds (g.copyIn f) (g.copyIn f)) ∧
      (∀ m : NodeId, m.index < g.nodes.size → m ≠ n →
        g'.inEdges.get m = g.inEdges.get m ∧ g'.outEdges.get m = g.outEdges.get m) ∧
      g'.entry = g.entry.map (moved n (g.copyIn f entry)) ∧
      g'.exit = g.exit.map (moved n (g.copyIn f exit)) ∧
      g'.inPorts = g.inPorts ∧ g'.outPorts = g.outPorts ∧
      ∀ a ∈ g.order, a ≠ n → ∀ b ∈ g.order, b ≠ n → ∀ steps', g'.Path a steps' b ↔
        ∃ steps, g.Path a steps b ∧ Rerouted g f n entry exit steps steps' := by
  have hcopies := copies_eq g hf.built.consistent.order_nodup
  have hsplice := hf.splice_eq hg.intact hn
  rw [hcopies] at hsplice
  obtain ⟨hgraft, _, hentry, hexit, hin, hout⟩ :=
    graft_frame g f ((g.nodes.get? n).bind Node.parent)
  have hlt := hg.consistent.allocated n hn
  refine ⟨_, hsplice, hcopies.symm, ?order, fun m => ?live, fun m hm => ?kept, fun m hm => ?copied,
    hf.values_edges_splice hg.consistent hn _ _, fun m hm hmn => ?tables, ?entry, ?exit, hin, hout,
    fun a ha han b hb hbn steps' => ?paths⟩
  case order =>
    obtain ⟨before, after, horder⟩ := List.append_of_mem hn
    exact ⟨before, after, horder, order_substitute _ _ (hgraft.trans horder)
      (hgraft ▸ hg.consistent.order_nodup)⟩
  case live =>
    rw [← hcopies]
    exact hg.intact.isLive_substitute_graft_iff hf.built.consistent hn _ _ _ _
  case kept => exact get?_nodes_graft hm
  case copied => exact hf.built.consistent.get?_nodes_graft_copyIn hm
  case tables =>
    rw [inEdges_substitute (copyIn_ne f entry hlt), outEdges_substitute (copyIn_ne f exit hlt),
      if_neg hmn, if_neg hmn, if_neg (copyIn_ne f entry hm).symm, if_neg (copyIn_ne f exit hm).symm]
    exact graft_get hm
  case entry => exact (if_eq_map_moved _ _ _).trans (hentry ▸ rfl)
  case exit => exact (if_eq_map_moved _ _ _).trans (hexit ▸ rfl)
  case paths =>
    have hedges := hf.values_edges_splice hg.consistent hn
      ((g.nodes.get? n).bind Node.parent) (f.order.map (g.copyIn f))
    constructor
    · intro h
      exact (h.rerouted hedges htied hg.consistent.allocated hf.tied hf.entry_mem hb hbn).1 ha han
    · rintro ⟨steps, h, hsteps⟩
      have h' := h.reroute hedges hbn hsteps
      rwa [moved_of_ne _ han] at h'

/-- A node that is entered twice, leads to itself and on, and is both entry and exit. -/
def sampleHost : Graph :=
  { ((((((({} : Graph).addNode { kind := .block }).addNode { kind := .nop }).addNode
      { kind := .finish }).addEdge ⟨0⟩ ⟨1⟩ (some .thenBranch)).addEdge ⟨1⟩ ⟨1⟩ none).addEdge
      ⟨1⟩ ⟨2⟩ none).addEdge ⟨0⟩ ⟨1⟩ (some .elseBranch) with
    entry := some ⟨1⟩, exit := some ⟨1⟩ }

/-- Two nodes that lead to each other; the first one has replaced another. -/
def sampleRing : Graph :=
  ({ (((({} : Graph).addNode { kind := .nop }).addNode { kind := .goto }).addEdge
      ⟨0⟩ ⟨1⟩ none).addEdge ⟨1⟩ ⟨0⟩ none with entry := some ⟨0⟩, exit := some ⟨1⟩ }.splice ⟨0⟩
    { ({} : Graph).addNode { kind := .block } with entry := some ⟨0⟩, exit := some ⟨0⟩ }).2

theorem insertable_ring : sampleRing.Insertable ⟨2⟩ ⟨1⟩ where
  built := .splice _
    (.withEnds _ _ (.addEdge _ _ _ (.addEdge _ _ _ (.addNode _ (.addNode _ .empty)))))
    (.withEnds _ _ (.addNode _ .empty))
  tied := by decide
  inPorts := rfl
  outPorts := rfl
  entry_eq := rfl
  exit_eq := rfl
  entry_mem := by decide
  exit_mem := by decide

/-- The first visit of the node goes around the ring, the second one straight through it. -/
theorem splice_exact_ring : ∃ g', sampleHost.splice ⟨1⟩ sampleRing = (.ok [⟨3⟩, ⟨4⟩], g') ∧
    g'.order = [⟨0⟩, ⟨3⟩, ⟨4⟩, ⟨2⟩] ∧ g'.entry = some ⟨3⟩ ∧ g'.exit = some ⟨4⟩ ∧
    g'.Path ⟨0⟩ [(⟨0⟩, ⟨3⟩), (⟨4⟩, ⟨4⟩), (⟨5⟩, ⟨3⟩), (⟨4⟩, ⟨4⟩), (⟨1⟩, ⟨3⟩), (⟨4⟩, ⟨4⟩),
      (⟨2⟩, ⟨2⟩)] ⟨2⟩ := by
  have hbuilt : sampleHost.Built := .withEnds _ _ (.addEdge _ _ _ (.addEdge _ _ _ (.addEdge _ _ _
    (.addEdge _ _ _ (.addNode _ (.addNode _ (.addNode _ .empty)))))))
  obtain ⟨g', hsplice, _, _, _, _, _, _, _, hentry, hexit, _, _, hpaths⟩ :=
    Insertable.splice_exact hbuilt (by decide) (n := ⟨1⟩) (by decide) insertable_ring
  have hg' : (sampleHost.splice ⟨1⟩ sampleRing).2 = g' := congrArg Prod.snd hsplice
  have hthrough : sampleRing.Path ⟨2⟩ [(⟨0⟩, ⟨1⟩)] ⟨1⟩ := .cons ⟨none, rfl⟩ (.nil _)
  refine ⟨g', hsplice, hg' ▸ rfl, hentry, hexit, ?_⟩
  refine (hpaths ⟨0⟩ (by decide) (by decide) ⟨2⟩ (by decide) (by decide) _).2
    ⟨[(⟨0⟩, ⟨1⟩), (⟨1⟩, ⟨1⟩), (⟨2⟩, ⟨2⟩)], ?_, ?_⟩
  · exact .cons ⟨_, rfl⟩ (.cons ⟨_, rfl⟩ (.cons ⟨_, rfl⟩ (.nil _)))
  · have haround : sampleRing.Path ⟨2⟩ [(⟨0⟩, ⟨1⟩), (⟨1⟩, ⟨2⟩), (⟨0⟩, ⟨1⟩)] ⟨1⟩ :=
      .cons ⟨_, rfl⟩ (.cons ⟨_, rfl⟩ hthrough)
    exact .visit haround (.visit hthrough (.pass (by decide) .nil))

end Graph

end Dataflow
