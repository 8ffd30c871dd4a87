import Dataflow.Graph.Splice
import Dataflow.Graph.Verify
import Dataflow.Proofs.Links

/-!
# Splicing a chain of nodes

What `Graph.splice` does where the fragment is a chain: the nodes of the chain take the
place of the node, what entered the node enters the first of them, and what left it leaves
the last. The graph stays linked, so it passes `Graph.verify`.

* `Graph.Linked.substitute`: one node gives its edges to others;
* `Graph.IsChain`: fragments that are chains;
* `Graph.Linked.splice`: a chain spliced into a linked graph;
* `Graph.Linked.verify_eq`: linked graphs pass verification.
-/

namespace Dataflow

namespace Arena

variable {name : String} {α : Type}

@[simp] theorem size_foldl_modify (l : List (Handle name)) (f : α → α) (a : Arena name α) :
    (l.foldl (fun a h => a.modify h f) a).size = a.size := by
  induction l generalizing a with
  | nil => rfl
  | cons h l ih => rw [List.foldl_cons, ih, size_modify]

/-- A change of different slots, one after the other. -/
theorem get?_foldl_modify {l : List (Handle name)} (hl : l.Nodup) (f : α → α) (a : Arena name α)
    (k : Handle name) : (l.foldl (fun a h => a.modify h f) a).get? k =
      if k ∈ l then (a.get? k).map f else a.get? k := by
  induction l generalizing a with
  | nil => simp
  | cons h l ih =>
    rw [List.nodup_cons] at hl
    rw [List.foldl_cons, ih hl.2, get?_modify]
    by_cases hk : h = k
    · subst hk
      simp [hl.1]
    · simp [hk, Ne.symm hk]

end Arena

namespace Graph

variable {g : Graph}

theorem Linked.isLive_eq (hg : g.Linked) {n : NodeId} (hn : n ∈ g.order) : g.isLive n = true := by
  have hlt : n.index < g.nodes.items.size := hg.allocated n hn
  rw [isLive, hg.kept n hn, Arena.contains, decide_eq_true hlt]
  rfl

/-! ### One node gives its edges to others -/

/-- The node that stands for `n` where another one takes its place. -/
def moved (n other m : NodeId) : NodeId := if m = n then other else m

theorem moved_self (n other : NodeId) : moved n other n = other := if_pos rfl

theorem moved_of_ne {n m : NodeId} (other : NodeId) (h : m ≠ n) : moved n other m = m := if_neg h

theorem map_moved_of_ne {n : NodeId} (other : NodeId) {place : Option NodeId} (h : place ≠ some n) :
    place.map (moved n other) = place := by
  cases place with
  | none => rfl
  | some m => exact congrArg some (moved_of_ne other fun hm => h (congrArg some hm))

/-- Where an edge comes from, once `exit` has the edges that left `n`. -/
def movedArrival (n exit : NodeId) (a : NodeId × Option Label) : NodeId × Option Label :=
  (moved n exit a.1, a.2)

/-- The edges after `entry` and `exit` took over those of `n`, where these are listed at `n`. -/
theorem edges_substitute_of_listed {n : NodeId} (hins : (g.inEdges.get n).Nodup)
    (houts : (g.outEdges.get n).Nodup)
    (hin : ∀ e, e ∈ g.inEdges.get n ↔ (g.edges.get? e).bind Edge.target = some n)
    (hout : ∀ e, e ∈ g.outEdges.get n ↔ (g.edges.get? e).bind Edge.source = some n)
    (nodes : List NodeId) (entry exit : NodeId) (e : EdgeId) :
    (g.substitute n nodes entry exit).edges.get? e = (g.edges.get? e).map fun edge =>
      ⟨edge.source.map (moved n exit), edge.target.map (moved n entry), edge.label⟩ := by
  rw [Graph.substitute]
  dsimp only
  rw [Arena.get?_foldl_modify houts, Arena.get?_foldl_modify hins]
  have hin := hin e
  have hout := hout e
  cases hedge : g.edges.get? e with
  | none => simp
  | some edge =>
    obtain ⟨source, target, label⟩ := edge
    simp only [hedge, Option.bind_some] at hin hout
    by_cases ht : target = some n <;> by_cases hs : source = some n <;>
      simp [hin, hout, ht, hs, moved_self, map_moved_of_ne]

section Substitute

variable (hg : g.Linked) {n entry exit : NodeId} {nodes : List NodeId}
include hg

/-- The edges after `entry` and `exit` took over those of `n`. -/
theorem Linked.edges_substitute (e : EdgeId) :
    (g.substitute n nodes entry exit).edges.get? e = (g.edges.get? e).map fun edge =>
      ⟨edge.source.map (moved n exit), edge.target.map (moved n entry), edge.label⟩ := by
  refine edges_substitute_of_listed (hg.inEdges_nodup n) (hg.outEdges_nodup n) (fun d => ?_)
    (fun d => ?_) nodes entry exit e
  · rw [hg.mem_inEdges, Option.bind_eq_some_iff]
    constructor
    · rintro ⟨s, label, hj⟩
      exact ⟨_, hj, rfl⟩
    · rintro ⟨edge, hedge, htarget⟩
      obtain ⟨s, _, t, _, label, hj⟩ := hg.ends d edge hedge
      rw [hedge] at hj
      cases hj
      cases htarget
      exact ⟨s, label, hedge⟩
  · rw [hg.mem_outEdges, Option.bind_eq_some_iff]
    constructor
    · rintro ⟨t, label, hj⟩
      exact ⟨_, hj, rfl⟩
    · rintro ⟨edge, hedge, hsource⟩
      obtain ⟨s, _, t, _, label, hj⟩ := hg.ends d edge hedge
      rw [hedge] at hj
      cases hj
      cases hsource
      exact ⟨t, label, hedge⟩

theorem Linked.joins_substitute {e : EdgeId} {s t : NodeId} :
    (g.substitute n nodes entry exit).Joins e s t ↔
      ∃ s' t', g.Joins e s' t' ∧ s = moved n exit s' ∧ t = moved n entry t' := by
  simp only [Joins, hg.edges_substitute]
  constructor
  · rintro ⟨label, h⟩
    obtain ⟨edge, hedge, h⟩ := Option.map_eq_some_iff.1 h
    obtain ⟨s', _, t', _, label', hj⟩ := hg.ends e edge hedge
    rw [hedge] at hj
    cases hj
    cases h
    exact ⟨s', t', ⟨label', hedge⟩, rfl, rfl⟩
  · rintro ⟨s', t', ⟨label, hj⟩, rfl, rfl⟩
    exact ⟨label, by rw [hj]; rfl⟩

theorem Linked.arrivalOf_substitute (e : EdgeId) :
    (g.substitute n nodes entry exit).arrivalOf e = (g.arrivalOf e).map (movedArrival n exit) := by
  rw [arrivalOf, arrivalOf, hg.edges_substitute]
  cases hedge : g.edges.get? e with
  | none => rfl
  | some edge =>
    obtain ⟨s, _, t, _, label, hj⟩ := hg.ends e edge hedge
    rw [hedge] at hj
    cases hj
    rfl

omit hg in
theorem inEdges_substitute (hentry : entry ≠ n) (m : NodeId) :
    (g.substitute n nodes entry exit).inEdges.get m =
      if m = n then [] else if m = entry then g.inEdges.get m ++ g.inEdges.get n
      else g.inEdges.get m := by
  rw [Graph.substitute]
  dsimp only
  rw [SideTable.get_modify, SideTable.get_set, SideTable.get_set, if_neg (Ne.symm hentry)]
  by_cases hm : m = n
  · subst hm
    simp [hentry]
  · by_cases he : m = entry
    · subst he
      simp [hm]
    · simp [hm, he, Ne.symm hm, Ne.symm he]

omit hg in
theorem outEdges_substitute (hexit : exit ≠ n) (m : NodeId) :
    (g.substitute n nodes entry exit).outEdges.get m =
      if m = n then [] else if m = exit then g.outEdges.get m ++ g.outEdges.get n
      else g.outEdges.get m := by
  rw [Graph.substitute]
  dsimp only
  rw [SideTable.get_modify, SideTable.get_set, SideTable.get_set, if_neg (Ne.symm hexit)]
  by_cases hm : m = n
  · subst hm
    simp [hexit]
  · by_cases he : m = exit
    · subst he
      simp [hm]
    · simp [hm, he, Ne.symm hm, Ne.symm he]

/-- Where the control comes from, once `entry` and `exit` took over the edges of `n`. -/
theorem Linked.arrivals_substitute (hentry : entry ≠ n) (m : NodeId) :
    (g.substitute n nodes entry exit).arrivals m =
      if m = n then [] else (if m = entry then g.arrivals m ++ g.arrivals n
        else g.arrivals m).map (movedArrival n exit) := by
  have hmap : ∀ l : List EdgeId, l.filterMap (g.substitute n nodes entry exit).arrivalOf =
      (l.filterMap g.arrivalOf).map (movedArrival n exit) := fun l => by
    rw [List.map_filterMap]
    exact List.filterMap_congr fun e _ => hg.arrivalOf_substitute e
  rw [arrivals, hmap, inEdges_substitute hentry]
  split
  · rfl
  · split
    · rw [List.filterMap_append]
      rfl
    · rfl

omit hg in
theorem moved_eq_iff {other m k : NodeId} (hother : other ≠ n) :
    moved n other m = k ↔ k ≠ n ∧ (m = k ∨ m = n ∧ k = other) := by
  rw [moved]
  split
  · next h =>
    subst h
    constructor
    · rintro rfl
      exact ⟨hother, .inr ⟨rfl, rfl⟩⟩
    · rintro ⟨hk, rfl | ⟨_, rfl⟩⟩
      · exact absurd rfl hk
      · rfl
  · next h =>
    constructor
    · rintro rfl
      exact ⟨h, .inl rfl⟩
    · rintro ⟨_, h' | h'⟩
      · exact h'
      · exact absurd h'.1 h

theorem Linked.mem_inEdges_substitute (hentry : entry ≠ n) {m : NodeId} {e : EdgeId} :
    e ∈ (g.substitute n nodes entry exit).inEdges.get m ↔
      ∃ s, (g.substitute n nodes entry exit).Joins e s m := by
  have hmem : e ∈ (g.substitute n nodes entry exit).inEdges.get m ↔
      m ≠ n ∧ (e ∈ g.inEdges.get m ∨ e ∈ g.inEdges.get n ∧ m = entry) := by
    rw [inEdges_substitute hentry]
    by_cases hm : m = n <;> by_cases he : m = entry <;> simp [hm, he]
  rw [hmem, hg.mem_inEdges, hg.mem_inEdges]
  simp only [hg.joins_substitute]
  constructor
  · rintro ⟨hm, ⟨s, hj⟩ | ⟨⟨s, hj⟩, he⟩⟩
    · exact ⟨_, s, m, hj, rfl, ((moved_eq_iff hentry).2 ⟨hm, .inl rfl⟩).symm⟩
    · exact ⟨_, s, n, hj, rfl, ((moved_eq_iff hentry).2 ⟨hm, .inr ⟨rfl, he⟩⟩).symm⟩
  · rintro ⟨_, s, t, hj, _, ht⟩
    obtain ⟨hm, rfl | ⟨rfl, he⟩⟩ := (moved_eq_iff hentry).1 ht.symm
    · exact ⟨hm, .inl ⟨s, hj⟩⟩
    · exact ⟨hm, .inr ⟨⟨s, hj⟩, he⟩⟩

theorem Linked.mem_outEdges_substitute (hexit : exit ≠ n) {m : NodeId} {e : EdgeId} :
    e ∈ (g.substitute n nodes entry exit).outEdges.get m ↔
      ∃ t, (g.substitute n nodes entry exit).Joins e m t := by
  have hmem : e ∈ (g.substitute n nodes entry exit).outEdges.get m ↔
      m ≠ n ∧ (e ∈ g.outEdges.get m ∨ e ∈ g.outEdges.get n ∧ m = exit) := by
    rw [outEdges_substitute hexit]
    by_cases hm : m = n <;> by_cases he : m = exit <;> simp [hm, he]
  rw [hmem, hg.mem_outEdges, hg.mem_outEdges]
  simp only [hg.joins_substitute]
  constructor
  · rintro ⟨hm, ⟨t, hj⟩ | ⟨⟨t, hj⟩, he⟩⟩
    · exact ⟨_, m, t, hj, ((moved_eq_iff hexit).2 ⟨hm, .inl rfl⟩).symm, rfl⟩
    · exact ⟨_, n, t, hj, ((moved_eq_iff hexit).2 ⟨hm, .inr ⟨rfl, he⟩⟩).symm, rfl⟩
  · rintro ⟨_, s, t, hj, hs, _⟩
    obtain ⟨hm, rfl | ⟨rfl, he⟩⟩ := (moved_eq_iff hexit).1 hs.symm
    · exact ⟨hm, .inl ⟨t, hj⟩⟩
    · exact ⟨hm, .inr ⟨⟨t, hj⟩, he⟩⟩

theorem Linked.inEdges_nodup_substitute (hentry : entry ≠ n) (m : NodeId) :
    ((g.substitute n nodes entry exit).inEdges.get m).Nodup := by
  rw [inEdges_substitute hentry]
  split
  · exact .nil
  · split
    · refine List.nodup_append.2 ⟨hg.inEdges_nodup _, hg.inEdges_nodup _, ?_⟩
      rintro e he _ he' rfl
      obtain ⟨s, hj⟩ := (hg.mem_inEdges _ e).1 he
      obtain ⟨s', hj'⟩ := (hg.mem_inEdges _ e).1 he'
      exact absurd (hj.target_eq hj') ‹_›
    · exact hg.inEdges_nodup m

theorem Linked.outEdges_nodup_substitute (hexit : exit ≠ n) (m : NodeId) :
    ((g.substitute n nodes entry exit).outEdges.get m).Nodup := by
  rw [outEdges_substitute hexit]
  split
  · exact .nil
  · split
    · refine List.nodup_append.2 ⟨hg.outEdges_nodup _, hg.outEdges_nodup _, ?_⟩
      rintro e he _ he' rfl
      obtain ⟨t, hj⟩ := (hg.mem_outEdges _ e).1 he
      obtain ⟨t', hj'⟩ := (hg.mem_outEdges _ e).1 he'
      exact absurd (hj.source_eq hj') ‹_›
    · exact hg.outEdges_nodup m

/-- A node that gives its edges to others leaves a linked graph. -/
theorem Linked.substitute (hn : n ∈ g.order) (hentry : entry ∈ g.order) (hexit : exit ∈ g.order)
    (hen : entry ≠ n) (hex : exit ≠ n) {order : List NodeId} (hnodup : order.Nodup)
    (hmem : ∀ m, m ∈ order ↔ m ∈ g.order ∧ m ≠ n) :
    ({ g.substitute n nodes entry exit with order } : Graph).Linked := by
  have hjoins : ∀ {e s t}, g.Joins e s t →
      (g.substitute n nodes entry exit).Joins e (moved n exit s) (moved n entry t) :=
    fun hj => hg.joins_substitute.2 ⟨_, _, hj, rfl, rfl⟩
  have hin : ∀ m, ((g.substitute n nodes entry exit).inEdges.get m).Nodup :=
    hg.inEdges_nodup_substitute hen
  have hout : ∀ m, ((g.substitute n nodes entry exit).outEdges.get m).Nodup :=
    hg.outEdges_nodup_substitute hex
  have hmemIn : ∀ m e, e ∈ (g.substitute n nodes entry exit).inEdges.get m ↔
      ∃ s, (g.substitute n nodes entry exit).Joins e s m := fun _ _ =>
    hg.mem_inEdges_substitute hen
  have hmemOut : ∀ m e, e ∈ (g.substitute n nodes entry exit).outEdges.get m ↔
      ∃ t, (g.substitute n nodes entry exit).Joins e m t := fun _ _ =>
    hg.mem_outEdges_substitute hex
  have hkept : ∀ {other m}, other ∈ g.order → other ≠ n → m ∈ g.order →
      moved n other m ∈ order := by
    intro other m ho hne hm
    rw [hmem, moved]
    split
    · exact ⟨ho, hne⟩
    · exact ⟨hm, ‹_›⟩
  exact {
    order_nodup := hnodup
    allocated := fun m hm => hg.allocated m ((hmem m).1 hm).1
    kept := fun m hm => by
      refine (SideTable.get_set g.removed n m true).trans ?_
      rw [if_neg (Ne.symm ((hmem m).1 hm).2)]
      exact hg.kept m ((hmem m).1 hm).1
    unremoved := fun m hm => by
      refine (SideTable.get_set g.removed n m true).trans ?_
      have hne : n ≠ m := fun h => Nat.not_lt.2 hm (h ▸ hg.allocated n hn)
      rw [if_neg hne]
      exact hg.unremoved m hm
    ends := fun e edge h => by
      replace h : (g.substitute n nodes entry exit).edges.get? e = some edge := h
      rw [hg.edges_substitute, Option.map_eq_some_iff] at h
      obtain ⟨edge', hedge, _⟩ := h
      obtain ⟨s, hs, t, ht, hj⟩ := hg.ends e edge' hedge
      exact ⟨_, hkept hexit hex hs, _, hkept hentry hen ht, hjoins hj⟩
    mem_inEdges := hmemIn
    mem_outEdges := hmemOut
    inEdges_nodup := hin
    outEdges_nodup := hout
    inPorts := hg.inPorts
    outPorts := hg.outPorts
    entry := fun m h => by
      replace h : (if g.entry = some n then some entry else g.entry) = some m := h
      split at h
      · cases h
        exact (hmem _).2 ⟨hentry, hen⟩
      · next hne => exact (hmem m).2 ⟨hg.entry m h, fun hm => hne (hm ▸ h)⟩
    exit := fun m h => by
      replace h : (if g.exit = some n then some exit else g.exit) = some m := h
      split at h
      · cases h
        exact (hmem _).2 ⟨hexit, hex⟩
      · next hne => exact (hmem m).2 ⟨hg.exit m h, fun hm => hne (hm ▸ h)⟩ }

end Substitute

/-! ### Chains -/

/-- The graph with edges that make a chain of the nodes from the handle `start` on, `k + 1` of
    them. -/
def addChain (g : Graph) (start k : Nat) : Graph :=
  (List.range k).foldl (fun g i => g.addEdge ⟨start + i⟩ ⟨start + i + 1⟩ none) g

/-- What a chain of edges adds to a graph. -/
structure Chained (g : Graph) (start k : Nat) (g' : Graph) : Prop where
  linked : g'.Linked
  nodes : g'.nodes = g.nodes
  order : g'.order = g.order
  edges_size : g'.edges.size = g.edges.size + k
  inEdges : ∀ m, g'.inEdges.get m = g.inEdges.get m ++
    if start < m.index ∧ m.index ≤ start + k then [⟨g.edges.size + (m.index - start - 1)⟩] else []
  outEdges : ∀ m, g'.outEdges.get m = g.outEdges.get m ++
    if start ≤ m.index ∧ m.index < start + k then [⟨g.edges.size + (m.index - start)⟩] else []
  arrivals : ∀ m, g'.arrivals m = g.arrivals m ++
    if start < m.index ∧ m.index ≤ start + k then [(⟨m.index - 1⟩, none)] else []

theorem Linked.addChain (hg : g.Linked) {start k : Nat}
    (hk : ∀ i ≤ k, (⟨start + i⟩ : NodeId) ∈ g.order) :
    Chained g start k (g.addChain start k) := by
  induction k with
  | zero =>
    have hin : ∀ m : NodeId, ¬(start < m.index ∧ m.index ≤ start + 0) := fun m => by omega
    have hout : ∀ m : NodeId, ¬(start ≤ m.index ∧ m.index < start + 0) := fun m => by omega
    exact ⟨hg, rfl, rfl, rfl, fun m => by rw [if_neg (hin m), List.append_nil]; rfl,
      fun m => by rw [if_neg (hout m), List.append_nil]; rfl,
      fun m => by rw [if_neg (hin m), List.append_nil]; rfl⟩
  | succ k ih =>
    have h := ih fun i hi => hk i (Nat.le_succ_of_le hi)
    have hstep : g.addChain start (k + 1) =
        (g.addChain start k).addEdge ⟨start + k⟩ ⟨start + k + 1⟩ none := by
      rw [Graph.addChain, List.range_succ, List.foldl_append]
      rfl
    have hs : (⟨start + k⟩ : NodeId) ∈ (g.addChain start k).order := by
      rw [h.order]
      exact hk k (Nat.le_succ k)
    have ht : (⟨start + k + 1⟩ : NodeId) ∈ (g.addChain start k).order := by
      rw [h.order]
      exact hk (k + 1) (Nat.le_refl _)
    rw [hstep]
    have hnext : (g.addChain start k).edges.next = ⟨g.edges.size + k⟩ := by
      rw [← Handle.index_inj, Arena.next_index, h.edges_size]
    refine ⟨h.linked.addEdge hs ht none, h.nodes, h.order, ?_, fun m => ?_, fun m => ?_,
      fun m => ?_⟩
    · rw [Graph.addEdge, Arena.size_push, h.edges_size, Nat.add_assoc]
    · rw [Graph.addEdge, SideTable.get_modify, hnext]
      by_cases hm : (⟨start + k + 1⟩ : NodeId) = m
      · subst hm
        rw [if_pos rfl, h.inEdges, if_neg (by simp), if_pos (by dsimp only; omega), List.append_nil]
        congr 3
        simp only
        omega
      · have hm' : m.index ≠ start + k + 1 := fun heq => hm (Handle.index_inj.1 heq.symm)
        rw [if_neg hm, h.inEdges]
        congr 1
        exact if_congr (by omega) rfl rfl
    · rw [Graph.addEdge, SideTable.get_modify, hnext]
      by_cases hm : (⟨start + k⟩ : NodeId) = m
      · subst hm
        rw [if_pos rfl, h.outEdges, if_neg (by simp), if_pos (by simp), List.append_nil]
        congr 3
        simp only
        omega
      · have hm' : m.index ≠ start + k := fun heq => hm (Handle.index_inj.1 heq.symm)
        rw [if_neg hm, h.outEdges]
        congr 1
        exact if_congr (by omega) rfl rfl
    · rw [h.linked.arrivals_addEdge, h.arrivals]
      by_cases hm : (⟨start + k + 1⟩ : NodeId) = m
      · subst hm
        rw [if_pos rfl, if_neg (by simp), if_pos (by dsimp only; omega), List.append_nil]
        rfl
      · have hm' : m.index ≠ start + k + 1 := fun heq => hm (Handle.index_inj.1 heq.symm)
        rw [if_neg hm]
        congr 1
        exact if_congr (by omega) rfl rfl

/-- The handles of `k` nodes from the next one on. -/
def upcoming (g : Graph) (k : Nat) : List NodeId :=
  (List.range k).map fun i => ⟨g.nodes.size + i⟩

theorem upcoming_eq (g : Graph) (k : Nat) :
    g.upcoming k = (List.range' g.nodes.size k).map Handle.mk := by
  rw [upcoming, List.range'_eq_map_range, List.map_map]
  rfl

theorem mem_upcoming {k : Nat} {m : NodeId} :
    m ∈ g.upcoming k ↔ g.nodes.size ≤ m.index ∧ m.index < g.nodes.size + k := by
  rw [upcoming, List.mem_map]
  constructor
  · rintro ⟨i, hi, rfl⟩
    rw [List.mem_range] at hi
    exact ⟨Nat.le_add_right _ _, Nat.add_lt_add_left hi _⟩
  · rintro ⟨hle, hlt⟩
    exact ⟨m.index - g.nodes.size, List.mem_range.2 (by omega),
      Handle.index_inj.1 (Nat.add_sub_cancel' hle)⟩

theorem upcoming_nodup (k : Nat) : (g.upcoming k).Nodup :=
  List.nodup_range.map fun _ _ h => Nat.add_left_cancel (Handle.mk.inj h)

theorem mem_drop_upcoming {k i : Nat} {m : NodeId} : m ∈ (g.upcoming k).drop i ↔
    g.nodes.size + i ≤ m.index ∧ m.index < g.nodes.size + k := by
  rw [upcoming_eq, ← List.map_drop, List.drop_range', Nat.mul_one, List.mem_map]
  constructor
  · rintro ⟨j, hj, rfl⟩
    rw [List.mem_range'_1] at hj
    change g.nodes.size + i ≤ j ∧ j < g.nodes.size + k
    omega
  · rintro ⟨hle, hlt⟩
    exact ⟨m.index, List.mem_range'_1.2 ⟨hle, by omega⟩, rfl⟩

/-- What more nodes without edges add to a graph. -/
structure Furnished (g : Graph) (row : List Node) (g' : Graph) : Prop where
  linked : g'.Linked
  order : g'.order = g.order ++ g.upcoming row.length
  size : g'.nodes.size = g.nodes.size + row.length
  old : ∀ m : NodeId, m.index < g.nodes.size → g'.nodes.get? m = g.nodes.get? m
  new : ∀ i, g'.nodes.get? ⟨g.nodes.size + i⟩ = row[i]?
  edges : g'.edges = g.edges
  inEdges : g'.inEdges = g.inEdges
  outEdges : g'.outEdges = g.outEdges

theorem Linked.addNodes (hg : g.Linked) (row : List Node) :
    Furnished g row (row.foldl Graph.addNode g) := by
  induction row generalizing g with
  | nil =>
    refine ⟨hg, (List.append_nil _).symm, rfl, fun _ _ => rfl, fun i => ?_, rfl, rfl, rfl⟩
    exact (Arena.get?_eq_none_iff _ _).2 (Nat.le_add_right _ _)
  | cons node row ih =>
    have h := ih (hg.addNode node)
    have hsize : (g.addNode node).nodes.size = g.nodes.size + 1 := Arena.size_push _ _
    refine ⟨h.linked, ?_, ?_, fun m hm => ?_, fun i => ?_, h.edges, h.inEdges, h.outEdges⟩
    · have hrest : (g.addNode node).upcoming row.length =
          (List.range row.length).map fun i => ⟨g.nodes.size + (i + 1)⟩ := by
        simp only [upcoming, hsize, Nat.add_assoc, Nat.add_comm 1]
      rw [List.foldl_cons, h.order, hrest, upcoming, List.length_cons, List.range_succ_eq_map,
        List.map_cons, List.map_map]
      exact List.append_assoc _ _ _
    · rw [List.foldl_cons, h.size, hsize, List.length_cons]
      omega
    · rw [List.foldl_cons, h.old m (by omega)]
      exact Arena.get?_push_of_lt _ hm
    · rw [List.foldl_cons]
      cases i with
      | zero =>
        rw [h.old _ (by rw [hsize]; exact Nat.lt_succ_self _)]
        exact Arena.get?_push_next _ _
      | succ i =>
        have := h.new i
        rw [hsize] at this
        rw [List.getElem?_cons_succ, ← this, Nat.add_assoc, Nat.add_comm 1]

/-! ### Splicing -/

/-- A fragment that is a chain: its nodes in a row, each joined to the next. -/
structure IsChain (f : Graph) (row : List Node) : Prop where
  ne_nil : row ≠ []
  order : f.order = (List.range row.length).map Handle.mk
  nodes : f.nodes.values = row
  parent : ∀ node ∈ row, node.parent = none
  edges : f.edges.values =
    (List.range (row.length - 1)).map fun i => ⟨some ⟨i⟩, some ⟨i + 1⟩, none⟩
  inPorts : f.inPorts = []
  outPorts : f.outPorts = []
  entry : f.entry = some ⟨0⟩
  exit : f.exit = some ⟨row.length - 1⟩

theorem foldl_addNode_eq (row : List Node) (g : Graph) : row.foldl Graph.addNode g =
    { g with nodes := row.foldl Arena.push g.nodes, order := (row.foldl Graph.addNode g).order } := by
  induction row generalizing g with
  | nil => rfl
  | cons node row ih =>
    rw [List.foldl_cons, ih]
    rfl

theorem addChain_withOrder (g : Graph) (order : List NodeId) (start k : Nat) :
    ({ g with order } : Graph).addChain start k = { g.addChain start k with order } := by
  induction k with
  | zero => rfl
  | succ k ih =>
    rw [addChain, addChain] at *
    rw [List.range_succ, List.foldl_append, List.foldl_append, ih]
    rfl

section Chain

variable {f : Graph} {row : List Node} (hf : f.IsChain row)
include hf

theorem IsChain.copyOf_eq (g : Graph) {i : Nat} (hi : i < row.length) :
    g.copyOf f ⟨i⟩ = some ⟨g.nodes.size + i⟩ := by
  have hplace : f.position ⟨i⟩ = some i := by
    rw [position, hf.order, List.idxOf?_eq_some_iff]
    refine ⟨by simpa using hi, by simp, fun j hj => ?_⟩
    simp only [List.getElem_map, List.getElem_range, Handle.mk.injEq]
    exact Nat.ne_of_lt hj
  rw [copyOf, hplace]
  rfl

theorem IsChain.copies_eq (g : Graph) : g.copies f = g.upcoming row.length := by
  rw [copies, upcoming, hf.order, List.length_map, List.length_range]

theorem IsChain.filterMap_order : f.order.filterMap f.nodes.get? = row := by
  have hget : ∀ i, f.nodes.get? ⟨i⟩ = row[i]? := fun i => by
    rw [← hf.nodes, Arena.values, Array.getElem?_toList]
    rfl
  have hall : f.order.map f.nodes.get? = row.map some := by
    rw [hf.order, List.map_map]
    refine List.ext_getElem? fun i => ?_
    by_cases hi : i < row.length
    · simp [hget, hi]
    · simp [hi]
  calc f.order.filterMap f.nodes.get?
      = (f.order.map f.nodes.get?).filterMap id := by rw [List.filterMap_map, Function.id_comp]
    _ = row := by rw [hall, List.filterMap_map]; exact List.filterMap_some

/-- Grafting a chain adds its nodes, then its edges. -/
theorem IsChain.graft_eq (g : Graph) (parent : Option NodeId) :
    g.graft f parent =
      { ((row.map fun node => { node with parent }).foldl Graph.addNode g).addChain g.nodes.size
          (row.length - 1) with order := g.order } := by
  have hnodes : ∀ nodes : Arena "node" Node,
      row.foldl (fun nodes node => nodes.push (g.copyNode f parent node)) nodes =
        (row.map fun node => { node with parent }).foldl Arena.push nodes := by
    intro nodes
    rw [List.foldl_map]
    refine List.foldl_ext _ _ _ fun nodes node hnode => ?_
    rw [copyNode, hf.parent node hnode]
    rfl
  have hedges : f.edges.values.filterMap (fun edge => do
      return (← g.copyOf f (← edge.source), ← g.copyOf f (← edge.target), edge.label)) =
        (List.range (row.length - 1)).map fun i =>
          ((⟨g.nodes.size + i⟩ : NodeId), (⟨g.nodes.size + i + 1⟩ : NodeId), (none : Option Label)) := by
    rw [hf.edges, List.filterMap_map, ← List.filterMap_eq_map]
    refine List.filterMap_congr fun i hi => ?_
    rw [List.mem_range] at hi
    simp [hf.copyOf_eq g (show i < row.length by omega),
      hf.copyOf_eq g (show i + 1 < row.length by omega), Nat.add_assoc]
  rw [← addChain_withOrder, foldl_addNode_eq]
  simp only [graft, hf.filterMap_order, hnodes, hedges]
  rw [List.foldl_map]
  rfl

end Chain

/-- The graph `g'` has a chain of nodes `row` in place of the node `n` of `g`. -/
structure Spliced (g : Graph) (n : NodeId) (row : List Node) (g' : Graph) : Prop where
  linked : g'.Linked
  order : g'.order = g.order.flatMap (inPlaceOf n (g.upcoming row.length))
  size : g'.nodes.size = g.nodes.size + row.length
  old : ∀ m : NodeId, m.index < g.nodes.size → g'.nodes.get? m = g.nodes.get? m
  new : ∀ i, g'.nodes.get? ⟨g.nodes.size + i⟩ = row[i]?
  edges_size : g'.edges.size = g.edges.size + (row.length - 1)
  inEdges : ∀ m ∈ g.order, m ≠ n → g'.inEdges.get m = g.inEdges.get m
  inEdges_first : g'.inEdges.get ⟨g.nodes.size⟩ = g.inEdges.get n
  inEdges_next : ∀ i, i + 1 < row.length →
    g'.inEdges.get ⟨g.nodes.size + i + 1⟩ = [⟨g.edges.size + i⟩]
  outEdges : ∀ m ∈ g.order, m ≠ n → g'.outEdges.get m = g.outEdges.get m
  outEdges_last : g'.outEdges.get ⟨g.nodes.size + (row.length - 1)⟩ = g.outEdges.get n
  outEdges_prev : ∀ i, i + 1 < row.length →
    g'.outEdges.get ⟨g.nodes.size + i⟩ = [⟨g.edges.size + i⟩]
  arrivals : ∀ m ∈ g.order, m ≠ n → g'.arrivals m =
    (g.arrivals m).map (movedArrival n ⟨g.nodes.size + (row.length - 1)⟩)
  arrivals_first : g'.arrivals ⟨g.nodes.size⟩ =
    (g.arrivals n).map (movedArrival n ⟨g.nodes.size + (row.length - 1)⟩)
  arrivals_next : ∀ i, i + 1 < row.length →
    g'.arrivals ⟨g.nodes.size + i + 1⟩ = [(⟨g.nodes.size + i⟩, none)]

/-- What a chain of nodes adds to a graph, before they have a place in it. -/
structure Prepared (g : Graph) (row : List Node) (g₁ : Graph) : Prop where
  linked : g₁.Linked
  mem_order : ∀ m, m ∈ g₁.order ↔ m ∈ g.order ∨ m ∈ g.upcoming row.length
  size : g₁.nodes.size = g.nodes.size + row.length
  old : ∀ m : NodeId, m.index < g.nodes.size → g₁.nodes.get? m = g.nodes.get? m
  new : ∀ i, g₁.nodes.get? ⟨g.nodes.size + i⟩ = row[i]?
  edges_size : g₁.edges.size = g.edges.size + (row.length - 1)
  inEdges : ∀ m ∈ g.order, g₁.inEdges.get m = g.inEdges.get m
  inEdges_first : g₁.inEdges.get ⟨g.nodes.size⟩ = []
  inEdges_next : ∀ i, i + 1 < row.length →
    g₁.inEdges.get ⟨g.nodes.size + i + 1⟩ = [⟨g.edges.size + i⟩]
  outEdges : ∀ m ∈ g.order, g₁.outEdges.get m = g.outEdges.get m
  outEdges_last : g₁.outEdges.get ⟨g.nodes.size + (row.length - 1)⟩ = []
  outEdges_prev : ∀ i, i + 1 < row.length →
    g₁.outEdges.get ⟨g.nodes.size + i⟩ = [⟨g.edges.size + i⟩]
  arrivals : ∀ m ∈ g.order, g₁.arrivals m = g.arrivals m
  arrivals_next : ∀ i, i + 1 < row.length →
    g₁.arrivals ⟨g.nodes.size + i + 1⟩ = [(⟨g.nodes.size + i⟩, none)]

theorem Linked.prepared (hg : g.Linked) {row : List Node} (hrow : row ≠ []) :
    Prepared g row ((row.foldl Graph.addNode g).addChain g.nodes.size (row.length - 1)) := by
  have hpos : 0 < row.length := List.length_pos_iff.2 hrow
  have h₀ := hg.addNodes row
  have h₁ : Chained _ g.nodes.size (row.length - 1) _ := h₀.linked.addChain fun i hi => by
    rw [h₀.order]
    exact List.mem_append_right _ (mem_upcoming.2 ⟨by simp, by simp; omega⟩)
  generalize (row.foldl Graph.addNode g).addChain g.nodes.size (row.length - 1) = g₁ at h₁
  generalize row.foldl Graph.addNode g = g₀ at h₀ h₁
  have harr : ∀ m, g₀.arrivals m = g.arrivals m := fun m => by
    rw [Graph.arrivals, Graph.arrivals, h₀.inEdges]
    unfold arrivalOf
    rw [h₀.edges]
  have hlt := hg.allocated
  -- The new nodes had no edges before.
  have hnone : ∀ m : NodeId, g.nodes.size ≤ m.index → g.inEdges.get m = [] ∧
      g.outEdges.get m = [] ∧ g.arrivals m = [] := fun m hm =>
    have h := hg.edges_of_not_mem fun hmem => Nat.not_lt.2 hm (hlt m hmem)
    ⟨h.1, h.2, hg.arrivals_eq_nil_iff.2 h.1⟩
  exact {
    linked := h₁.linked
    mem_order := fun m => by rw [h₁.order, h₀.order, List.mem_append]
    size := h₁.nodes ▸ h₀.size
    old := h₁.nodes ▸ h₀.old
    new := h₁.nodes ▸ h₀.new
    edges_size := h₀.edges ▸ h₁.edges_size
    inEdges := fun m hm => by
      have := hlt m hm
      rw [h₁.inEdges, if_neg (by omega), List.append_nil, h₀.inEdges]
    inEdges_first := by
      rw [h₁.inEdges, if_neg (by simp), List.append_nil, h₀.inEdges, (hnone _ (by simp)).1]
    inEdges_next := fun i hi => by
      rw [h₁.inEdges, h₀.inEdges, h₀.edges, (hnone _ (by simp; omega)).1, if_pos (by simp; omega)]
      simp [show g.nodes.size + i + 1 - g.nodes.size - 1 = i by omega]
    outEdges := fun m hm => by
      have := hlt m hm
      rw [h₁.outEdges, if_neg (by omega), List.append_nil, h₀.outEdges]
    outEdges_last := by
      rw [h₁.outEdges, if_neg (by simp), List.append_nil, h₀.outEdges, (hnone _ (by simp)).2.1]
    outEdges_prev := fun i hi => by
      rw [h₁.outEdges, h₀.outEdges, h₀.edges, (hnone _ (by simp)).2.1, if_pos (by simp; omega)]
      simp
    arrivals := fun m hm => by
      have := hlt m hm
      rw [h₁.arrivals, if_neg (by omega), List.append_nil, harr]
    arrivals_next := fun i hi => by
      rw [h₁.arrivals, harr, (hnone _ (by simp; omega)).2.2, if_pos (by simp; omega)]
      rfl }

/-- The nodes of a chain in place of one node, once they are part of the graph. -/
theorem Prepared.spliced {n : NodeId} {row : List Node} {g₁ : Graph} (h : Prepared g row g₁)
    (hg : g.Linked) (hn : n ∈ g.order) (hrow : row ≠ []) :
    Spliced g n row { g₁.substitute n (g.upcoming row.length) ⟨g.nodes.size⟩
        ⟨g.nodes.size + (row.length - 1)⟩ with
      order := g.order.flatMap (inPlaceOf n (g.upcoming row.length)) } := by
  have hpos : 0 < row.length := List.length_pos_iff.2 hrow
  have hnew : ∀ m ∈ g.upcoming row.length, m ∉ g.order := fun m hm hold =>
    Nat.not_lt.2 (mem_upcoming.1 hm).1 (hg.allocated m hold)
  have hne : ∀ m ∈ g.upcoming row.length, m ≠ n := fun m hm h => hnew m hm (h ▸ hn)
  have hfirst : (⟨g.nodes.size⟩ : NodeId) ∈ g.upcoming row.length :=
    mem_upcoming.2 ⟨Nat.le_refl _, by simpa using hpos⟩
  have hlast : (⟨g.nodes.size + (row.length - 1)⟩ : NodeId) ∈ g.upcoming row.length :=
    mem_upcoming.2 ⟨Nat.le_add_right _ _, by simp; omega⟩
  have hnext : ∀ i, i + 1 < row.length → (⟨g.nodes.size + i + 1⟩ : NodeId) ∈ g.upcoming row.length ∧
      (⟨g.nodes.size + i⟩ : NodeId) ∈ g.upcoming row.length := fun i hi =>
    ⟨mem_upcoming.2 ⟨by simp; omega, by simp; omega⟩, mem_upcoming.2 ⟨by simp, by simp; omega⟩⟩
  have hlinked : ({ g₁.substitute n (g.upcoming row.length) ⟨g.nodes.size⟩
      ⟨g.nodes.size + (row.length - 1)⟩ with
        order := g.order.flatMap (inPlaceOf n (g.upcoming row.length)) } : Graph).Linked := by
    refine h.linked.substitute ((h.mem_order n).2 (.inl hn)) ((h.mem_order _).2 (.inr hfirst))
      ((h.mem_order _).2 (.inr hlast)) (hne _ hfirst) (hne _ hlast)
      (nodup_flatMap_inPlaceOf hg.order_nodup (upcoming_nodup _) hnew) fun m => ?_
    rw [mem_flatMap_inPlaceOf, and_iff_right hn, h.mem_order]
    constructor
    · rintro (hm | ⟨hm, hmn⟩)
      · exact ⟨.inr hm, hne m hm⟩
      · exact ⟨.inl hm, hmn⟩
    · rintro ⟨hm | hm, hmn⟩
      · exact .inr ⟨hm, hmn⟩
      · exact .inl hm
  obtain ⟨g₂, hg₂⟩ : ∃ g₂, g₂ = g₁.substitute n (g.upcoming row.length) ⟨g.nodes.size⟩
    ⟨g.nodes.size + (row.length - 1)⟩ := ⟨_, rfl⟩
  have hnodes : g₂.nodes = g₁.nodes := by rw [hg₂]; rfl
  have hedges : g₂.edges.size = g₁.edges.size := by
    rw [hg₂]
    exact (Arena.size_foldl_modify _ _ _).trans (Arena.size_foldl_modify _ _ _)
  have hin : ∀ m, g₂.inEdges.get m = if m = n then [] else if m = ⟨g.nodes.size⟩ then
      g₁.inEdges.get m ++ g₁.inEdges.get n else g₁.inEdges.get m := fun m => by
    rw [hg₂]
    exact inEdges_substitute (hne _ hfirst) m
  have hout : ∀ m, g₂.outEdges.get m = if m = n then [] else
      if m = ⟨g.nodes.size + (row.length - 1)⟩ then g₁.outEdges.get m ++ g₁.outEdges.get n
      else g₁.outEdges.get m := fun m => by
    rw [hg₂]
    exact outEdges_substitute (hne _ hlast) m
  have harr : ∀ m, g₂.arrivals m = if m = n then [] else (if m = ⟨g.nodes.size⟩ then
      g₁.arrivals m ++ g₁.arrivals n else g₁.arrivals m).map
        (movedArrival n ⟨g.nodes.size + (row.length - 1)⟩) := fun m => by
    rw [hg₂]
    exact h.linked.arrivals_substitute (hne _ hfirst) m
  have hnone : g₁.arrivals ⟨g.nodes.size⟩ = [] := h.linked.arrivals_eq_nil_iff.2 h.inEdges_first
  rw [← hg₂] at hlinked ⊢
  exact {
    linked := hlinked
    order := rfl
    size := (congrArg Arena.size hnodes).trans h.size
    old := fun m hm => (congrArg (Arena.get? · m) hnodes).trans (h.old m hm)
    new := fun i => (congrArg (Arena.get? · _) hnodes).trans (h.new i)
    edges_size := hedges.trans h.edges_size
    inEdges := fun m hm hmn => by
      refine (hin m).trans ?_
      rw [if_neg hmn, if_neg (ne_of_mem_of_not_mem hm (hnew _ hfirst)), h.inEdges m hm]
    inEdges_first := by
      refine (hin _).trans ?_
      rw [if_neg (hne _ hfirst), if_pos rfl, h.inEdges_first, h.inEdges n hn, List.nil_append]
    inEdges_next := fun i hi => by
      refine (hin _).trans ?_
      rw [if_neg (hne _ (hnext i hi).1), if_neg (by simp; omega), h.inEdges_next i hi]
    outEdges := fun m hm hmn => by
      refine (hout m).trans ?_
      rw [if_neg hmn, if_neg (ne_of_mem_of_not_mem hm (hnew _ hlast)), h.outEdges m hm]
    outEdges_last := by
      refine (hout _).trans ?_
      rw [if_neg (hne _ hlast), if_pos rfl, h.outEdges_last, h.outEdges n hn, List.nil_append]
    outEdges_prev := fun i hi => by
      refine (hout _).trans ?_
      rw [if_neg (hne _ (hnext i hi).2), if_neg (by simp; omega), h.outEdges_prev i hi]
    arrivals := fun m hm hmn => by
      refine (harr m).trans ?_
      rw [if_neg hmn, if_neg (ne_of_mem_of_not_mem hm (hnew _ hfirst)), h.arrivals m hm]
    arrivals_first := by
      refine (harr _).trans ?_
      rw [if_neg (hne _ hfirst), if_pos rfl, hnone, h.arrivals n hn, List.nil_append]
    arrivals_next := fun i hi => by
      refine (harr _).trans ?_
      rw [if_neg (hne _ (hnext i hi).1), if_neg (by simp; omega), h.arrivals_next i hi,
        List.map_singleton, movedArrival, moved, if_neg (hne _ (hnext i hi).2)] }

/-- Splicing a chain into a linked graph succeeds. -/
theorem Linked.exists_splice (hg : g.Linked) {n : NodeId} (hn : n ∈ g.order) {f : Graph}
    {row : List Node} (hf : f.IsChain row) :
    ∃ g', g.splice n f = (.ok (g.upcoming row.length), g') ∧
      Spliced g n (row.map fun node =>
        { node with parent := (g.nodes.get? n).bind Node.parent }) g' := by
  generalize hparent : (g.nodes.get? n).bind Node.parent = parent
  have hpos : 0 < row.length := List.length_pos_iff.2 hf.ne_nil
  have hlen : (row.map fun node => { node with parent }).length = row.length := List.length_map _
  have hrow : (row.map fun node => { node with parent }) ≠ [] := fun h =>
    hf.ne_nil (List.map_eq_nil_iff.1 h)
  refine ⟨_, ?_, hlen ▸ (hg.prepared hrow).spliced hg hn hrow⟩
  have hlive := hg.isLive_eq hn
  rw [splice, if_neg (by simp [hlive]), if_neg (by simp [hf.inPorts, hf.outPorts]), hf.entry,
    hf.exit]
  simp only [hn, not_true, if_false, hf.copyOf_eq g hpos,
    hf.copyOf_eq g (show row.length - 1 < row.length by omega), hf.copies_eq, hparent,
    hf.graft_eq, Nat.add_zero]
  rfl

/-! ### Verification -/

/-- Checks that all pass, one after the other. -/
theorem forM_eq_ok {ε α : Type} {check : α → Except ε PUnit} {l : List α}
    (h : ∀ x ∈ l, check x = .ok ⟨⟩) : l.forM check = .ok ⟨⟩ := by
  induction l with
  | nil => rfl
  | cons x l ih =>
    rw [List.forall_mem_cons] at h
    rw [List.forM, h.1]
    exact ih h.2

theorem Linked.verifyNode_eq (hg : g.Linked) {n : NodeId} (hn : n ∈ g.order) :
    g.verifyNode n = .ok () := by
  rw [verifyNode, hg.kept n hn, if_neg Bool.false_ne_true]
  have hin : ∀ e ∈ g.inEdges.get n, (g.edges.get? e).bind Edge.target = some n := by
    intro e he
    obtain ⟨s, label, hj⟩ := (hg.mem_inEdges n e).1 he
    rw [hj]
    rfl
  have hout : ∀ e ∈ g.outEdges.get n, (g.edges.get? e).bind Edge.source = some n := by
    intro e he
    obtain ⟨t, label, hj⟩ := (hg.mem_outEdges n e).1 he
    rw [hj]
    rfl
  dsimp only
  rw [forM_eq_ok fun e he => by rw [if_neg (not_not.2 (hin e he))]; rfl]
  exact forM_eq_ok fun e he => by rw [if_neg (not_not.2 (hout e he))]; rfl

theorem Linked.verifyEdge_eq (hg : g.Linked) {e : EdgeId} {edge : Edge}
    (he : g.edges.get? e = some edge) : g.verifyEdge e edge = .ok () := by
  obtain ⟨s, hs, t, ht, label, hj⟩ := hg.ends e edge he
  rw [he] at hj
  cases hj
  refine forM_eq_ok fun n hn => ?_
  have hmem : n ∈ g.order := by
    rcases List.mem_append.1 hn with hn | hn
    · rw [Option.toList_some, List.mem_singleton] at hn
      exact hn ▸ hs
    · rw [Option.toList_some, List.mem_singleton] at hn
      exact hn ▸ ht
  rw [hg.kept n hmem, List.contains_iff_mem.2 hmem]
  rfl

/-- Linked graphs pass verification. -/
theorem Linked.verify_eq (hg : g.Linked) : g.verify = .ok () := by
  rw [verify, hg.inPorts, hg.outPorts, forM_eq_ok fun n hn => hg.verifyNode_eq hn,
    forM_eq_ok fun entry hentry => hg.verifyEdge_eq (Arena.mem_entries.1 hentry)]
  cases hentry : g.entry with
  | none => rfl
  | some n =>
    have hlive := hg.isLive_eq (hg.entry n hentry)
    simp only [hlive]
    rfl

end Graph

end Dataflow
