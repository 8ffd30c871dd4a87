import Dataflow.Analysis.Basic
import Mathlib.Data.List.Forall2
import Mathlib.Data.List.Nodup

/-!
# Linked graphs

A graph keeps each edge in three places: in the arena, in the list of edges that
leave its source and in the list of edges that enter its target. An *indexed* graph is
one in which these agree (`Graph.Indexed`), and it is *wired* if its edges all join nodes
in order (`Graph.Wired`); it is *linked* if it has no ports, either, and its entry, its
exit and the nodes in order are nodes that were not replaced (`Graph.Linked`). All graphs
made by lowering are linked, and a splice of one into another is linked again.

* `Graph.arrivals`: where the control comes from at a node, with the labels;
* `Graph.Linked.addNode`, `Graph.Linked.addEdge`: growing keeps a graph linked;
* `arrivals_addEdge`: an edge arrives at its target and nowhere else.
-/

namespace Dataflow

/-! ### Other members in place of one -/

section InPlaceOf

variable {α : Type} [DecidableEq α] {l ys : List α} {x z : α}

/-- What stands in place of `z` where `ys` stand in place of `x`. -/
def inPlaceOf (x : α) (ys : List α) (z : α) : List α := if z = x then ys else [z]

theorem inPlaceOf_self (x : α) (ys : List α) : inPlaceOf x ys x = ys := if_pos rfl

theorem inPlaceOf_of_ne (ys : List α) (h : z ≠ x) : inPlaceOf x ys z = [z] := if_neg h

theorem mem_flatMap_inPlaceOf :
    z ∈ l.flatMap (inPlaceOf x ys) ↔ x ∈ l ∧ z ∈ ys ∨ z ∈ l ∧ z ≠ x := by
  rw [List.mem_flatMap]
  constructor
  · rintro ⟨w, hw, hz⟩
    by_cases h : w = x
    · rw [h, inPlaceOf_self] at hz
      exact .inl ⟨h ▸ hw, hz⟩
    · rw [inPlaceOf_of_ne _ h, List.mem_singleton] at hz
      exact .inr (hz ▸ ⟨hw, h⟩)
  · rintro (⟨hx, hz⟩ | ⟨hz, hne⟩)
    · exact ⟨x, hx, by rwa [inPlaceOf_self]⟩
    · exact ⟨z, hz, by rw [inPlaceOf_of_ne _ hne]; exact List.mem_singleton_self z⟩

theorem flatMap_inPlaceOf_of_not_mem (hx : x ∉ l) : l.flatMap (inPlaceOf x ys) = l := by
  induction l with
  | nil => rfl
  | cons w l ih =>
    rw [List.mem_cons, not_or] at hx
    rw [List.flatMap_cons, inPlaceOf_of_ne ys (Ne.symm hx.1), ih hx.2, List.singleton_append]

theorem nodup_flatMap_inPlaceOf (hl : l.Nodup) (hys : ys.Nodup) (hnew : ∀ y ∈ ys, y ∉ l) :
    (l.flatMap (inPlaceOf x ys)).Nodup := by
  refine List.nodup_flatMap.2 ⟨fun z _ => ?_, hl.imp_of_mem ?_⟩
  · rw [inPlaceOf]
    split
    · exact hys
    · exact List.nodup_singleton z
  · intro z w hz hw hne y hy hy'
    rw [inPlaceOf] at hy hy'
    split at hy <;> split at hy'
    · next h₁ h₂ => exact hne (h₁.trans h₂.symm)
    · exact hnew y hy (List.mem_singleton.1 hy' ▸ hw)
    · exact hnew y hy' (List.mem_singleton.1 hy ▸ hz)
    · exact hne ((List.mem_singleton.1 hy).symm.trans (List.mem_singleton.1 hy'))

end InPlaceOf

namespace Arena

variable {name : String} {α : Type}

theorem next_index (a : Arena name α) : a.next.index = a.size := rfl

theorem get?_eq_some_lt {a : Arena name α} {h : Handle name} {x : α} (hx : a.get? h = some x) :
    h.index < a.size := by
  refine Nat.lt_of_not_le fun hle => ?_
  rw [(get?_eq_none_iff a h).2 hle] at hx
  cases hx

theorem exists_get?_of_lt {a : Arena name α} {h : Handle name} (hlt : h.index < a.size) :
    ∃ x, a.get? h = some x := by
  cases hx : a.get? h with
  | some x => exact ⟨x, rfl⟩
  | none => exact absurd ((get?_eq_none_iff a h).1 hx) (Nat.not_le.2 hlt)

theorem get_eq_ok_iff {a : Arena name α} {h : Handle name} {x : α} :
    a.get h = .ok x ↔ a.get? h = some x := by
  rw [get]
  cases a.get? h <;> simp

theorem get?_push_of_lt {a : Arena name α} {h : Handle name} (x : α) (hlt : h.index < a.size) :
    (a.push x).get? h = a.get? h := by
  rw [get?_push, if_neg]
  rintro rfl
  exact Nat.lt_irrefl _ hlt

@[simp] theorem get?_push_next (a : Arena name α) (x : α) : (a.push x).get? a.next = some x := by
  rw [get?_push, if_pos rfl]

theorem mem_handles {a : Arena name α} {h : Handle name} : h ∈ a.handles ↔ h.index < a.size := by
  simp only [handles, List.mem_map, List.mem_range]
  exact ⟨fun ⟨i, hi, hh⟩ => hh ▸ hi, fun hlt => ⟨h.index, hlt, rfl⟩⟩

theorem handles_nodup (a : Arena name α) : a.handles.Nodup :=
  List.nodup_range.map fun _ _ h => congrArg Handle.index h

theorem handles_push (a : Arena name α) (x : α) : (a.push x).handles = a.handles ++ [a.next] := by
  change (List.range (a.push x).size).map _ = _
  rw [size_push, List.range_succ, List.map_append]
  rfl

theorem map_fst_entries (a : Arena name α) : a.entries.map Prod.fst = a.handles :=
  List.map_fst_zip (by simp [handles, values])

theorem mem_entries {a : Arena name α} {h : Handle name} {x : α} :
    (h, x) ∈ a.entries ↔ a.get? h = some x := by
  have hhandle : ∀ i, a.handles[i]? = some h ↔ i < a.size ∧ h = ⟨i⟩ := by
    intro i
    by_cases hi : i < a.size
    · simp [handles, hi, eq_comm, List.getElem?_range (show i < a.items.size from hi)]
    · simp [handles, hi, List.getElem?_eq_none (show (List.range a.items.size).length ≤ i by
        simpa [size] using hi)]
  simp only [entries, List.mem_iff_getElem?, List.getElem?_zip_eq_some, hhandle, values]
  constructor
  · rintro ⟨i, ⟨_, rfl⟩, hx⟩
    simpa [get?] using hx
  · intro hx
    exact ⟨h.index, ⟨get?_eq_some_lt hx, rfl⟩, by simpa [get?] using hx⟩

end Arena

/-! ### Lists of results -/

section Results

variable {α β : Type} {f : α → Run β} {l : List α}

/-- A list of steps gives the list of their results. -/
theorem Run.mapM_eq_ok {ys : List β} :
    l.mapM f = .ok ys ↔ List.Forall₂ (fun x y => f x = .ok y) l ys := by
  induction l generalizing ys with
  | nil =>
    rw [List.mapM_nil, List.forall₂_nil_left_iff]
    exact ⟨fun h => (Except.ok.inj h).symm, fun h => h ▸ rfl⟩
  | cons x l ih =>
    rw [List.mapM_cons, Run.bind_eq_ok, List.forall₂_cons_left_iff]
    constructor
    · rintro ⟨y, hy, h⟩
      obtain ⟨zs, hzs, h⟩ := Run.bind_eq_ok.1 h
      exact ⟨y, zs, hy, ih.1 hzs, (Except.ok.inj h).symm⟩
    · rintro ⟨y, zs, hy, hzs, rfl⟩
      exact ⟨y, hy, Run.bind_eq_ok.2 ⟨zs, ih.2 hzs, rfl⟩⟩

/-- A list of steps gives results if each of them does. -/
theorem Run.exists_mapM_eq_ok :
    (∃ ys, l.mapM f = .ok ys) ↔ ∀ x ∈ l, ∃ y, f x = .ok y := by
  simp only [Run.mapM_eq_ok]
  induction l with
  | nil => exact ⟨fun _ x hx => absurd hx List.not_mem_nil, fun _ => ⟨[], .nil⟩⟩
  | cons x l ih =>
    rw [List.forall_mem_cons, ← ih]
    constructor
    · rintro ⟨_, _ | ⟨hy, hys⟩⟩
      exact ⟨⟨_, hy⟩, ⟨_, hys⟩⟩
    · rintro ⟨⟨y, hy⟩, ⟨ys, hys⟩⟩
      exact ⟨y :: ys, .cons hy hys⟩

end Results

namespace Graph

/-- An edge leads from a node to another one. -/
def Joins (g : Graph) (e : EdgeId) (source target : NodeId) : Prop :=
  ∃ label, g.edges.get? e = some ⟨some source, some target, label⟩

/-- A graph that lists each node in order once, and each edge where it begins and where it ends. -/
structure Indexed (g : Graph) : Prop where
  order_nodup : g.order.Nodup
  mem_inEdges : ∀ n e, e ∈ g.inEdges.get n ↔ ∃ source, g.Joins e source n
  mem_outEdges : ∀ n e, e ∈ g.outEdges.get n ↔ ∃ target, g.Joins e n target
  inEdges_nodup : ∀ n, (g.inEdges.get n).Nodup
  outEdges_nodup : ∀ n, (g.outEdges.get n).Nodup

/-- A graph whose edges join nodes in order, each listed where it begins and where it ends. -/
structure Wired (g : Graph) : Prop extends g.Indexed where
  ends : ∀ e edge, g.edges.get? e = some edge →
    ∃ source ∈ g.order, ∃ target ∈ g.order, g.Joins e source target

/-- A wired graph without ports, whose nodes in order, entry and exit are there and were not
    replaced. -/
structure Linked (g : Graph) : Prop extends g.Wired where
  allocated : ∀ n ∈ g.order, n.index < g.nodes.size
  kept : ∀ n ∈ g.order, g.removed.get n = false
  unremoved : ∀ n : NodeId, g.nodes.size ≤ n.index → g.removed.get n = false
  inPorts : g.inPorts = []
  outPorts : g.outPorts = []
  entry : ∀ n, g.entry = some n → n ∈ g.order
  exit : ∀ n, g.exit = some n → n ∈ g.order

namespace Joins

variable {g : Graph} {e : EdgeId} {s t s' t' : NodeId}

theorem source_eq (h : g.Joins e s t) (h' : g.Joins e s' t') : s = s' := by
  obtain ⟨_, h⟩ := h
  obtain ⟨_, h'⟩ := h'
  rw [h] at h'
  cases h'
  rfl

theorem target_eq (h : g.Joins e s t) (h' : g.Joins e s' t') : t = t' := by
  obtain ⟨_, h⟩ := h
  obtain ⟨_, h'⟩ := h'
  rw [h] at h'
  cases h'
  rfl

end Joins

namespace Wired

variable {g : Graph} (hg : g.Wired) {e : EdgeId} {s t n : NodeId}
include hg

theorem source_mem (h : g.Joins e s t) : s ∈ g.order := by
  obtain ⟨s', hs, t', _, hj⟩ := hg.ends e _ h.choose_spec
  exact h.source_eq hj ▸ hs

theorem target_mem (h : g.Joins e s t) : t ∈ g.order := by
  obtain ⟨s', _, t', ht, hj⟩ := hg.ends e _ h.choose_spec
  exact h.target_eq hj ▸ ht

theorem outEdges_of_joins (h : g.Joins e s t) : e ∈ g.outEdges.get s :=
  (hg.mem_outEdges s e).2 ⟨t, h⟩

/-- No edge touches a node that is not in order. -/
theorem edges_of_not_mem (hn : n ∉ g.order) : g.inEdges.get n = [] ∧ g.outEdges.get n = [] := by
  refine ⟨List.eq_nil_iff_forall_not_mem.2 fun e he => ?_,
    List.eq_nil_iff_forall_not_mem.2 fun e he => ?_⟩
  · obtain ⟨s, hs⟩ := (hg.mem_inEdges n e).1 he
    exact hn (hg.target_mem hs)
  · obtain ⟨t, ht⟩ := (hg.mem_outEdges n e).1 he
    exact hn (hg.source_mem ht)

end Wired

theorem Linked.next_not_mem {g : Graph} (hg : g.Linked) : g.nodes.next ∉ g.order :=
  fun h => Nat.lt_irrefl _ (hg.allocated _ h)

/-! ### Arrivals -/

/-- Where an edge comes from, and its label. -/
def arrivalOf (g : Graph) (e : EdgeId) : Option (NodeId × Option Label) := do
  let edge ← g.edges.get? e
  return (← edge.source, edge.label)

/-- Where the control comes from at a node, by the edges that enter it, in order. -/
def arrivals (g : Graph) (n : NodeId) : List (NodeId × Option Label) :=
  (g.inEdges.get n).filterMap g.arrivalOf

theorem Wired.mem_arrivals {g : Graph} (hg : g.Wired) {n s : NodeId} {label : Option Label} :
    (s, label) ∈ g.arrivals n ↔ ∃ e, g.edges.get? e = some ⟨some s, some n, label⟩ := by
  simp only [arrivals, List.mem_filterMap, arrivalOf]
  constructor
  · rintro ⟨e, he, h⟩
    obtain ⟨s', label', hj⟩ := (hg.mem_inEdges n e).1 he
    rw [hj] at h
    cases h
    exact ⟨e, hj⟩
  · rintro ⟨e, he⟩
    exact ⟨e, (hg.mem_inEdges n e).2 ⟨s, label, he⟩, by rw [he]; rfl⟩

theorem Wired.mem_arrivals_iff {g : Graph} (hg : g.Wired) {n s : NodeId} :
    (∃ label, (s, label) ∈ g.arrivals n) ↔ ∃ e, g.Joins e s n := by
  constructor
  · rintro ⟨label, h⟩
    obtain ⟨e, he⟩ := hg.mem_arrivals.1 h
    exact ⟨e, label, he⟩
  · rintro ⟨e, label, he⟩
    exact ⟨label, hg.mem_arrivals.2 ⟨e, he⟩⟩

theorem Wired.arrivals_eq_nil_iff {g : Graph} (hg : g.Wired) {n : NodeId} :
    g.arrivals n = [] ↔ g.inEdges.get n = [] := by
  simp only [List.eq_nil_iff_forall_not_mem, Prod.forall]
  constructor
  · intro h e he
    obtain ⟨s, label, hj⟩ := (hg.mem_inEdges n e).1 he
    exact h s label (hg.mem_arrivals.2 ⟨e, hj⟩)
  · intro h s label hs
    obtain ⟨e, he⟩ := hg.mem_arrivals.1 hs
    exact h e ((hg.mem_inEdges n e).2 ⟨s, label, he⟩)

/-! ### Growing -/

theorem linked_empty : ({} : Graph).Linked where
  order_nodup := .nil
  allocated := by simp
  kept := by simp
  unremoved n _ := SideTable.get_empty n
  ends e edge h := by simp [Arena.get?] at h
  mem_inEdges n e := by
    rw [SideTable.get_empty]
    simp [Joins, Arena.get?, default]
  mem_outEdges n e := by
    rw [SideTable.get_empty]
    simp [Joins, Arena.get?, default]
  inEdges_nodup n := by
    rw [SideTable.get_empty]
    exact .nil
  outEdges_nodup n := by
    rw [SideTable.get_empty]
    exact .nil
  inPorts := rfl
  outPorts := rfl
  entry n h := by simp at h
  exit n h := by simp at h

namespace Linked

variable {g : Graph} (hg : g.Linked)
include hg

/-- A new node is one without edges. -/
theorem addNode (node : Node) : (g.addNode node).Linked where
  order_nodup := List.nodup_append.2 ⟨hg.order_nodup, List.nodup_singleton _,
    fun a ha b hb hab => hg.next_not_mem (List.mem_singleton.1 hb ▸ hab ▸ ha)⟩
  allocated n hn := by
    rw [show (g.addNode node).nodes.size = g.nodes.size + 1 from Arena.size_push _ _]
    rcases List.mem_append.1 hn with hn | hn
    · exact Nat.lt_succ_of_lt (hg.allocated n hn)
    · exact List.mem_singleton.1 hn ▸ Nat.lt_succ_self _
  kept n hn := by
    rcases List.mem_append.1 hn with hn | hn
    · exact hg.kept n hn
    · exact List.mem_singleton.1 hn ▸ hg.unremoved _ (Nat.le_refl _)
  unremoved n hn := by
    rw [show (g.addNode node).nodes.size = g.nodes.size + 1 from Arena.size_push _ _] at hn
    exact hg.unremoved n (Nat.le_of_succ_le hn)
  ends e edge h := by
    obtain ⟨s, hs, t, ht, hj⟩ := hg.ends e edge h
    exact ⟨s, List.mem_append_left _ hs, t, List.mem_append_left _ ht, hj⟩
  mem_inEdges := hg.mem_inEdges
  mem_outEdges := hg.mem_outEdges
  inEdges_nodup := hg.inEdges_nodup
  outEdges_nodup := hg.outEdges_nodup
  inPorts := hg.inPorts
  outPorts := hg.outPorts
  entry n h := List.mem_append_left _ (hg.entry n h)
  exit n h := List.mem_append_left _ (hg.exit n h)

/-- Another node of the graph for its entry. -/
theorem withEntry {entry : Option NodeId} (h : ∀ n, entry = some n → n ∈ g.order) :
    ({ g with entry } : Graph).Linked :=
  { hg with entry := h }

/-- Another node of the graph for its exit. -/
theorem withExit {exit : Option NodeId} (h : ∀ n, exit = some n → n ∈ g.order) :
    ({ g with exit } : Graph).Linked :=
  { hg with exit := h }

/-- Every edge listed somewhere was there before the next one. -/
theorem next_not_mem_edges (n : NodeId) :
    g.edges.next ∉ g.inEdges.get n ∧ g.edges.next ∉ g.outEdges.get n := by
  constructor <;> intro h
  · obtain ⟨_, _, hj⟩ := (hg.mem_inEdges n _).1 h
    exact Nat.lt_irrefl _ (Arena.get?_eq_some_lt hj)
  · obtain ⟨_, _, hj⟩ := (hg.mem_outEdges n _).1 h
    exact Nat.lt_irrefl _ (Arena.get?_eq_some_lt hj)

omit hg in
theorem joins_addEdge {source target : NodeId} {label : Option Label} {e : EdgeId} {s t : NodeId} :
    (g.addEdge source target label).Joins e s t ↔
      (e = g.edges.next ∧ s = source ∧ t = target) ∨ g.Joins e s t := by
  simp only [Joins, Graph.addEdge, Arena.get?_push]
  by_cases he : e = g.edges.next
  · subst he
    rw [(Arena.get?_eq_none_iff g.edges g.edges.next).2 (Nat.le_refl _)]
    simp [eq_comm]
  · simp [he]

/-- One more edge between nodes in order. -/
theorem addEdge {source target : NodeId} (hs : source ∈ g.order) (ht : target ∈ g.order)
    (label : Option Label) : (g.addEdge source target label).Linked where
  order_nodup := hg.order_nodup
  allocated := hg.allocated
  kept := hg.kept
  unremoved := hg.unremoved
  ends e edge h := by
    rw [Graph.addEdge, Arena.get?_push] at h
    split at h
    · next he => exact ⟨source, hs, target, ht, joins_addEdge.2 (.inl ⟨he, rfl, rfl⟩)⟩
    · obtain ⟨s, hs, t, ht, hj⟩ := hg.ends e edge h
      exact ⟨s, hs, t, ht, joins_addEdge.2 (.inr hj)⟩
  mem_inEdges n e := by
    simp only [joins_addEdge]
    rw [Graph.addEdge, SideTable.get_modify]
    split
    · next hn =>
      subst hn
      rw [List.mem_append, List.mem_singleton, hg.mem_inEdges]
      exact ⟨fun h => h.elim (fun ⟨s, h⟩ => ⟨s, .inr h⟩) fun h => ⟨source, .inl ⟨h, rfl, rfl⟩⟩,
        fun ⟨s, h⟩ => h.elim (fun h => .inr h.1) fun h => .inl ⟨s, h⟩⟩
    · next hn =>
      rw [hg.mem_inEdges]
      exact ⟨fun ⟨s, h⟩ => ⟨s, .inr h⟩,
        fun ⟨s, h⟩ => ⟨s, h.resolve_left fun h => hn h.2.2.symm⟩⟩
  mem_outEdges n e := by
    simp only [joins_addEdge]
    rw [Graph.addEdge, SideTable.get_modify]
    split
    · next hn =>
      subst hn
      rw [List.mem_append, List.mem_singleton, hg.mem_outEdges]
      exact ⟨fun h => h.elim (fun ⟨t, h⟩ => ⟨t, .inr h⟩) fun h => ⟨target, .inl ⟨h, rfl, rfl⟩⟩,
        fun ⟨t, h⟩ => h.elim (fun h => .inr h.1) fun h => .inl ⟨t, h⟩⟩
    · next hn =>
      rw [hg.mem_outEdges]
      exact ⟨fun ⟨t, h⟩ => ⟨t, .inr h⟩,
        fun ⟨t, h⟩ => ⟨t, h.resolve_left fun h => hn h.2.1.symm⟩⟩
  inEdges_nodup n := by
    rw [Graph.addEdge, SideTable.get_modify]
    split
    · exact List.nodup_append.2 ⟨hg.inEdges_nodup _, List.nodup_singleton _, fun a ha b hb hab =>
        (hg.next_not_mem_edges _).1 (List.mem_singleton.1 hb ▸ hab ▸ ha)⟩
    · exact hg.inEdges_nodup n
  outEdges_nodup n := by
    rw [Graph.addEdge, SideTable.get_modify]
    split
    · exact List.nodup_append.2 ⟨hg.outEdges_nodup _, List.nodup_singleton _, fun a ha b hb hab =>
        (hg.next_not_mem_edges _).2 (List.mem_singleton.1 hb ▸ hab ▸ ha)⟩
    · exact hg.outEdges_nodup n
  inPorts := hg.inPorts
  outPorts := hg.outPorts
  entry := hg.entry
  exit := hg.exit

/-- An edge arrives at its target, after all that arrived there before, and nowhere else. -/
theorem arrivals_addEdge (source target : NodeId) (label : Option Label) (n : NodeId) :
    (g.addEdge source target label).arrivals n =
      if target = n then g.arrivals n ++ [(source, label)] else g.arrivals n := by
  -- The new edge aside, the arena is as before at every edge that is listed.
  have hold : ∀ m, ((g.inEdges.get m).filterMap (g.addEdge source target label).arrivalOf) =
      (g.inEdges.get m).filterMap g.arrivalOf := fun m =>
    List.filterMap_congr fun e he => by
      obtain ⟨_, _, hj⟩ := (hg.mem_inEdges m e).1 he
      rw [arrivalOf, arrivalOf, Graph.addEdge, Arena.get?_push_of_lt _ (Arena.get?_eq_some_lt hj)]
  simp only [arrivals]
  rw [show (g.addEdge source target label).inEdges = g.inEdges.modify target (· ++ [g.edges.next])
    from rfl, SideTable.get_modify]
  split
  · next hn =>
    subst hn
    rw [List.filterMap_append, hold]
    congr 1
    simp [arrivalOf, Graph.addEdge]
  · exact hold n

end Linked

end Graph

end Dataflow
