import Dataflow.Proofs.Settled
import Dataflow.Proofs.Splicing

/-!
# Facts around a spliced row

A node that changes nothing gives its place to a row of nodes that change nothing either. The
solver then visits these nodes once each, in order: the fact that arrived at the old node runs along
the row, and the edges behind it hold this fact already. No other node is visited.

* `Filled`: the facts when the first nodes of the row were visited;
* `Filled.settled`: in the end the facts are settled again, and what arrives at each node is what
  arrived there before.
-/

namespace Dataflow.Inlining

variable {g g' : Graph} {q : Program} {F F' : FactMap Known} {E A : NodeId → Effect} {n : NodeId}
  {row : List Node} {oracle : Oracle}

theorem drop_upcoming {i : Nat} (hi : i < row.length) : (g.upcoming row.length).drop i =
    ⟨g.nodes.size + i⟩ :: (g.upcoming row.length).drop (i + 1) := by
  have hlen : (g.upcoming row.length).length = row.length := by simp [Graph.upcoming]
  rw [List.drop_eq_getElem_cons (hlen.symm ▸ hi : i < (g.upcoming row.length).length)]
  simp [Graph.upcoming]

/-- The facts `F'` are the facts `F`, and the first `i` edges of the row hold what arrived at the
    node `n`. -/
structure Filled (g : Graph) (F : FactMap Known) (n : NodeId) (row : List Node) (i : Nat)
    (F' : FactMap Known) : Prop where
  initial : F'.initial = F.initial
  changed : F'.changed = []
  old : ∀ e : EdgeId, e.index < g.edges.size → F'.get e = F.get e
  new : ∀ j < i, j + 1 < row.length → F'.get ⟨g.edges.size + j⟩ = some (F.joinIncoming g n)

theorem index_lt_of_mem_inEdges (hg : g.Linked) {e : EdgeId} (he : e ∈ g.inEdges.get n) :
    e.index < g.edges.size := by
  obtain ⟨_, _, hedge⟩ := (hg.mem_inEdges n e).1 he
  exact Arena.get?_eq_some_lt hedge

section Splice

variable (hF : Settled g F E) (hg : g.Linked) (hn : n ∈ g.order) (hkeep : E n = .keep)
  (hs : g.Spliced n row g')
include hg hs

/-- The fact that arrived at the old node arrives at each node of the row, as far as it is
    filled. -/
theorem Filled.joinIncoming_new {i : Nat} (h : Filled g F n row i F') (hi : i < row.length) :
    F'.joinIncoming g' ⟨g.nodes.size + i⟩ = F.joinIncoming g n := by
  cases i with
  | zero =>
    rw [FactMap.joinIncoming, FactMap.joinIncoming, Nat.add_zero, hs.inEdges_first]
    exact FactMap.joined_congr h.initial fun e he => h.old e (index_lt_of_mem_inEdges hg he)
  | succ i =>
    rw [FactMap.joinIncoming, ← Nat.add_assoc, hs.inEdges_next i hi, FactMap.joined,
      List.filterMap_cons, h.new i (Nat.lt_succ_self i) hi]
    rfl

theorem Filled.joinIncoming_old {i : Nat} (h : Filled g F n row i F') {m : NodeId}
    (hm : m ∈ g.order) (hmn : m ≠ n) : F'.joinIncoming g' m = F.joinIncoming g m := by
  rw [FactMap.joinIncoming, FactMap.joinIncoming, hs.inEdges m hm hmn]
  exact FactMap.joined_congr h.initial fun e he => h.old e (index_lt_of_mem_inEdges hg he)

include hF hn hkeep in
/-- One visit fills one more edge of the row, or finds nothing to do at its end. -/
theorem Filled.visit {i : Nat} {w w' : Worklist Known} {rest : List NodeId}
    (h : Filled g F n row i w.facts) (hi : i < row.length)
    (hA : A ⟨g.nodes.size + i⟩ = .keep)
    (hv : Worklist.Visited (analysis oracle).toAnalysis g' (fun n _ => (A n).apply)
      ⟨g.nodes.size + i⟩ rest w w') :
    Filled g F n row (i + 1) w'.facts ∧
      ((∀ m ∈ g.upcoming row.length, g.nodes.size + i < m.index → m ∈ rest) → w'.queue = rest) := by
  have hfacts : ∀ e, w'.facts.get e = if e ∈ g'.outEdges.get ⟨g.nodes.size + i⟩ then
      some (F.joinIncoming g n) else w.facts.get e := by
    intro e
    refine (hv.facts e).trans ?_
    rw [← h.joinIncoming_new hg hs hi]
    change (if _ then some ((A _).apply _) else _) = _
    rw [hA]
    rfl
  by_cases hlast : i + 1 < row.length
  · rw [hs.outEdges_prev i hlast] at hfacts
    simp only [List.mem_singleton] at hfacts
    refine ⟨⟨hv.initial.trans h.initial, hv.changed, fun e he => ?_, fun j hj hj' => ?_⟩,
      fun hrest => hv.same fun e he _ k hlead => hrest k ?_ ?_⟩
    · rw [hfacts, if_neg (fun heq => by rw [heq] at he; exact absurd he (by simp)), h.old e he]
    · rw [hfacts]
      split
      · rfl
      · next hne =>
        refine h.new j ?_ hj'
        rcases Nat.lt_succ_iff_lt_or_eq.1 hj with hj | rfl
        · exact hj
        · exact absurd rfl hne
    all_goals
      change e ∈ g'.outEdges.get ⟨g.nodes.size + i⟩ at he
      rw [hs.outEdges_prev i hlast, List.mem_singleton] at he
      subst he
      have hin : (⟨g.edges.size + i⟩ : EdgeId) ∈ g'.inEdges.get ⟨g.nodes.size + i + 1⟩ := by
        rw [hs.inEdges_next i hlast]
        exact List.mem_singleton_self _
      obtain ⟨_, hjoins⟩ := (hs.linked.mem_inEdges _ _).1 hin
      obtain rfl : k = ⟨g.nodes.size + i + 1⟩ := Graph.Joins.target_eq hlead hjoins
    · exact Graph.mem_upcoming.2 ⟨by simp; omega, by simp; omega⟩
    · exact Nat.lt_succ_self _
  · obtain rfl : i = row.length - 1 := by omega
    rw [hs.outEdges_last] at hfacts
    -- Behind the row, the edges hold the fact already.
    have hsame : ∀ e ∈ g.outEdges.get n, w.facts.get e = some (F.joinIncoming g n) := by
      intro e he
      obtain ⟨_, _, hedge⟩ := (hg.mem_outEdges n e).1 he
      rw [h.old e (Arena.get?_eq_some_lt hedge), hF.fact n hn e he, hkeep]
      rfl
    have hget : ∀ e, w'.facts.get e = w.facts.get e := by
      intro e
      rw [hfacts]
      split
      · next he => exact (hsame e he).symm
      · rfl
    refine ⟨⟨hv.initial.trans h.initial, hv.changed, fun e he => ?_, fun j hj hj' => ?_⟩,
      fun _ => hv.same fun e he hne => absurd ?_ hne⟩
    · rw [hget, h.old e he]
    · rw [hget, h.new j (by omega) hj']
    · rw [← hget e, hv.get_of_mem he]

include hF hn hkeep in
/-- The solver visits each node of the row once. -/
theorem Filled.exists_run (hfollows : ∀ m ∈ g'.order, HasEffect oracle q g' m (A m))
    (hA : ∀ m ∈ g.upcoming row.length, A m = .keep) {i : Nat} (hi : i ≤ row.length)
    {w : Worklist Known} (h : Filled g F n row i w.facts)
    (hq : w.queue = (g.upcoming row.length).drop i) :
    ∃ v, Worklist.run (analysis oracle).toAnalysis g' q (row.length - i) w = .ok v ∧
      Filled g F n row row.length v.facts := by
  induction hleft : row.length - i generalizing i w with
  | zero =>
    obtain rfl : i = row.length := by omega
    rw [List.drop_eq_nil_of_le (by simp [Graph.upcoming])] at hq
    refine ⟨w, ?_, h⟩
    rw [Worklist.run]
    simp only [hq]
  | succ left ih =>
    have hi' : i < row.length := by omega
    rw [drop_upcoming hi'] at hq
    have hmem : (⟨g.nodes.size + i⟩ : NodeId) ∈ g.upcoming row.length :=
      Graph.mem_upcoming.2 ⟨by simp, by simp; omega⟩
    have hmem' : (⟨g.nodes.size + i⟩ : NodeId) ∈ g'.order := by
      rw [hs.order]
      exact mem_flatMap_inPlaceOf.2 (.inl ⟨hn, hmem⟩)
    obtain ⟨w', hvisit, hv⟩ := Worklist.visit_follows hs.linked.toIndexed (analysis_follows hfollows) hmem'
      ((g.upcoming row.length).drop (i + 1)) h.changed
    obtain ⟨hfilled, hqueue⟩ := h.visit hF hg hn hkeep hs hi' (hA _ hmem) hv
    -- The nodes behind this one are still in the queue.
    obtain ⟨v, hrun, hend⟩ := ih (by omega) hfilled (hqueue fun m hm hlt =>
      Graph.mem_drop_upcoming.2 ⟨by omega, (Graph.mem_upcoming.1 hm).2⟩) (by omega)
    refine ⟨v, ?_, hend⟩
    rw [Worklist.run]
    simp only [hq, hvisit, hrun]

include hF hn hkeep in
/-- Once the row is filled, each edge that leaves one of its nodes holds the fact. -/
theorem Filled.get_eq_of_new (h : Filled g F n row row.length F') {m : NodeId}
    (hm : m ∈ g.upcoming row.length) {e : EdgeId} (he : e ∈ g'.outEdges.get m) :
    F'.get e = some (F.joinIncoming g n) := by
  obtain ⟨i, hi, rfl⟩ := List.mem_map.1 hm
  rw [List.mem_range] at hi
  by_cases hlast : i + 1 < row.length
  · rw [hs.outEdges_prev i hlast, List.mem_singleton] at he
    rw [he]
    exact h.new i hi hlast
  · obtain rfl : i = row.length - 1 := by omega
    rw [hs.outEdges_last] at he
    obtain ⟨_, _, hedge⟩ := (hg.mem_outEdges n e).1 he
    rw [h.old e (Arena.get?_eq_some_lt hedge), hF.fact n hn e he, hkeep]
    rfl

include hF hn hkeep in
/-- Once the row is filled, the facts are settled again, and arrive where they arrived. -/
theorem Filled.settled (h : Filled g F n row row.length F') :
    Settled g' F' (fun m => if m ∈ g.order then E m else .keep) ∧
      (∀ m ∈ g.upcoming row.length, F'.joinIncoming g' m = F.joinIncoming g n) ∧
      ∀ m ∈ g.order, m ≠ n → F'.joinIncoming g' m = F.joinIncoming g m := by
  have hnew : ∀ m ∈ g.upcoming row.length, F'.joinIncoming g' m = F.joinIncoming g n := by
    intro m hm
    obtain ⟨i, hi, rfl⟩ := List.mem_map.1 hm
    rw [List.mem_range] at hi
    exact Filled.joinIncoming_new hg hs
      ⟨h.initial, h.changed, h.old, fun j hj => h.new j (by omega)⟩ hi
  have hold : ∀ m ∈ g.order, m ≠ n → F'.joinIncoming g' m = F.joinIncoming g m :=
    fun m hm hmn => h.joinIncoming_old hg hs hm hmn
  refine ⟨⟨h.initial.trans hF.initial, h.changed, fun m hm e he => ?_⟩, hnew, hold⟩
  rw [hs.order] at hm
  rcases mem_flatMap_inPlaceOf.1 hm with ⟨_, hm⟩ | ⟨hm, hmn⟩
  · have hnot : m ∉ g.order := fun hmem =>
      absurd (hg.allocated m hmem) (Nat.not_lt.2 (Graph.mem_upcoming.1 hm).1)
    rw [hnew m hm, if_neg hnot]
    exact h.get_eq_of_new hF hg hn hkeep hs hm he
  · rw [hs.outEdges m hm hmn] at he
    obtain ⟨_, _, hedge⟩ := (hg.mem_outEdges m e).1 he
    rw [h.old e (Arena.get?_eq_some_lt hedge), hF.fact m hm e he, hold m hm hmn, if_pos hm]

include hF hn hkeep in
/-- The facts are settled again along the row, and arrive where they arrived. -/
theorem Settled.exists_propagate (hfollows : ∀ m ∈ g'.order, HasEffect oracle q g' m (A m))
    (hA : ∀ m ∈ g.upcoming row.length, A m = .keep) :
    ∃ F', Filled g F n row row.length F' ∧
      ∀ bound ≥ row.length, ∃ k, (analysis oracle).propagate bound g' q F
        (g.upcoming row.length) = .ok (k, F') := by
  have hstart : Filled g F n row 0 F.settled :=
    ⟨rfl, rfl, fun _ _ => rfl, fun j hj => absurd hj (Nat.not_lt_zero j)⟩
  obtain ⟨v, hrun, hend⟩ := Filled.exists_run hF hg hn hkeep hs hfollows hA (Nat.zero_le _)
    (w := { facts := F.settled, queue := g.upcoming row.length }) hstart rfl
  refine ⟨v.facts, hend, fun bound hbound => ⟨v.updates, ?_⟩⟩
  rw [Analysis.propagate_eq]
  rw [foldl_enqueue_nodup (show ((analysis oracle).direction.arrange
    (g.upcoming row.length)).Nodup from Graph.upcoming_nodup _)]
  change (Worklist.run _ g' q bound { facts := F.settled, queue := g.upcoming row.length } >>= _)
    = _
  rw [Worklist.run_mono hrun hbound]
  rfl

end Splice

end Dataflow.Inlining
