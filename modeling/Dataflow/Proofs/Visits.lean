import Dataflow.Analysis.Solver
import Dataflow.Proofs.Links

/-!
# Visits of the solver

What a visit of a node does, for an analysis that puts on each edge leaving the
node (the way facts flow) a function of the facts that arrive there, joined
(`Analysis.Follows`). Everything that is proved about the solver rests on one
statement about one visit, `Worklist.visit_follows`:

* the edges that leave the node get their new facts, all others keep theirs;
* the nodes that a changed fact arrives at join the queue, behind those in it.

A run is a chain of visits (`Worklist.Reaches`). It ends if something that a visit
lowers is well-founded (`Worklist.exists_run`).
-/

namespace Dataflow

variable {A : Type}

namespace FactMap

variable [DecidableEq A]

theorem initial_set (m : FactMap A) (e : EdgeId) (a : A) : (m.set e a).initial = m.initial := by
  rw [set]
  split <;> rfl

theorem changed_set (m : FactMap A) (e : EdgeId) (a : A) :
    (m.set e a).changed = if m.get e = some a then m.changed else m.changed ++ [e] := by
  rw [set]
  split <;> rfl

theorem get_put (m : FactMap A) (edges : List EdgeId) (h : EdgeId → A) (d : EdgeId) :
    (m.put edges fun e => some (h e)).get d = if d ∈ edges then some (h d) else m.get d := by
  induction edges generalizing m with
  | nil => simp [put]
  | cons e edges ih =>
    refine (ih (m.set e (h e))).trans ?_
    rw [get_set]
    by_cases hd : d ∈ edges
    · simp [hd]
    · by_cases he : e = d
      · simp [he]
      · simp [hd, he, Ne.symm he]

theorem initial_put (m : FactMap A) (edges : List EdgeId) (h : EdgeId → A) :
    (m.put edges fun e => some (h e)).initial = m.initial := by
  induction edges generalizing m with
  | nil => rfl
  | cons e edges ih => exact (ih (m.set e (h e))).trans (m.initial_set e (h e))

/-- Facts put on edges are recorded where they differ from those before. -/
theorem changed_put (m : FactMap A) {edges : List EdgeId} (hedges : edges.Nodup) (h : EdgeId → A) :
    (m.put edges fun e => some (h e)).changed =
      m.changed ++ edges.filter fun e => m.get e ≠ some (h e) := by
  induction edges generalizing m with
  | nil => simp [put]
  | cons e edges ih =>
    rw [List.nodup_cons] at hedges
    -- The first edge is not among the others, so their facts are as before it was set.
    have hrest : (edges.filter fun d => (m.set e (h e)).get d ≠ some (h d)) =
        edges.filter fun d => m.get d ≠ some (h d) :=
      List.filter_congr fun d hd => by
        rw [get_set, if_neg]
        rintro rfl
        exact hedges.1 hd
    refine (ih (m.set e (h e)) hedges.2).trans ?_
    rw [hrest, changed_set, List.filter_cons]
    by_cases he : m.get e = some (h e) <;> simp [he]

/-- Facts put where they are already change nothing. -/
theorem put_eq_self {m : FactMap A} {edges : List EdgeId} {h : EdgeId → A}
    (hedges : ∀ e ∈ edges, m.get e = some (h e)) : m.put edges (fun e => some (h e)) = m := by
  induction edges with
  | nil => rfl
  | cons e edges ih =>
    rw [List.forall_mem_cons] at hedges
    have hset : m.set e (h e) = m := if_pos hedges.1
    change (m.set e (h e)).put edges (fun e => some (h e)) = m
    rw [hset, ih hedges.2]

omit [DecidableEq A] in
@[simp] theorem get_settled (m : FactMap A) (e : EdgeId) : m.settled.get e = m.get e := rfl

omit [DecidableEq A] in
/-- What is joined where edges meet depends on the facts on these edges only. -/
theorem joined_congr [Fact A] {m m' : FactMap A} {edges : List EdgeId}
    (hinit : m.initial = m'.initial) (h : ∀ e ∈ edges, m.get e = m'.get e) :
    m.joined edges = m'.joined edges := by
  rw [joined, joined, List.filterMap_congr h, hinit]

end FactMap

namespace Direction

/-- An edge leads facts from a node to another one. -/
def Leads : Direction → Graph → EdgeId → NodeId → NodeId → Prop
  | forward, g, e, n, k => g.Joins e n k
  | backward, g, e, n, k => g.Joins e k n

variable {g : Graph} (hg : g.Indexed) (d : Direction) {e : EdgeId} {n k : NodeId}
include hg

theorem mem_inputs_iff : e ∈ d.inputs g n ↔ ∃ k, d.Leads g e k n := by
  cases d with
  | forward => exact hg.mem_inEdges n e
  | backward => exact hg.mem_outEdges n e

theorem mem_outputs_iff : e ∈ d.outputs g n ↔ ∃ k, d.Leads g e n k := by
  cases d with
  | forward => exact hg.mem_outEdges n e
  | backward => exact hg.mem_inEdges n e

theorem outputs_nodup : (d.outputs g n).Nodup := by
  cases d with
  | forward => exact hg.outEdges_nodup n
  | backward => exact hg.inEdges_nodup n

omit hg in
theorem mem_order_of_leads (hg : g.Wired) (h : d.Leads g e n k) : n ∈ g.order ∧ k ∈ g.order := by
  cases d with
  | forward => exact ⟨hg.source_mem h, hg.target_mem h⟩
  | backward => exact ⟨hg.target_mem h, hg.source_mem h⟩

omit hg in
/-- In a wired graph, only a node in order has edges. -/
theorem mem_order_of_outputs (hg : g.Wired) (h : e ∈ d.outputs g n) : n ∈ g.order := by
  obtain ⟨_, hlead⟩ := (d.mem_outputs_iff hg.toIndexed).1 h
  exact (d.mem_order_of_leads hg hlead).1

omit hg in
theorem mem_order_of_inputs (hg : g.Wired) (h : d.inputs g n ≠ []) : n ∈ g.order := by
  obtain ⟨e, he⟩ := List.exists_mem_of_ne_nil _ h
  obtain ⟨_, hlead⟩ := (d.mem_inputs_iff hg.toIndexed).1 he
  exact (d.mem_order_of_leads hg hlead).2

omit hg in
/-- The edges that lead facts are those that there are. -/
theorem exists_leads (hg : g.Wired) (d : Direction) {edge : Edge}
    (he : g.edges.get? e = some edge) : ∃ n k, d.Leads g e n k := by
  obtain ⟨s, _, t, _, hj⟩ := hg.ends e edge he
  cases d with
  | forward => exact ⟨s, t, hj⟩
  | backward => exact ⟨t, s, hj⟩

omit hg in
theorem Leads.unique {n' k' : NodeId} {d : Direction} (h : d.Leads g e n k)
    (h' : d.Leads g e n' k') : n = n' ∧ k = k' := by
  cases d with
  | forward => exact ⟨h.source_eq h', h.target_eq h'⟩
  | backward => exact ⟨h.target_eq h', h.source_eq h'⟩

omit hg in
/-- The receiver of an edge is the node that it leads facts to. -/
theorem Leads.receiver {d : Direction} (h : d.Leads g e n k) :
    ∃ edge, g.edges.get? e = some edge ∧ d.receiver edge = some k := by
  cases d with
  | forward =>
    obtain ⟨label, h⟩ := h
    exact ⟨_, h, rfl⟩
  | backward =>
    obtain ⟨label, h⟩ := h
    exact ⟨_, h, rfl⟩

end Direction

namespace Analysis

/-- The receivers of edges that there are. -/
theorem receivers_eq (an : Analysis A) {g : Graph} {edges : List EdgeId}
    (h : ∀ e ∈ edges, ∃ edge, g.edges.get? e = some edge) :
    an.receivers g edges =
      .ok (edges.filterMap fun e => (g.edges.get? e).bind an.direction.receiver) := by
  -- Each edge is looked up in turn; all of them are there.
  have hmap : edges.mapM (fun e => do return an.direction.receiver (← g.edges.get e)) =
      (Except.ok (edges.map fun e => (g.edges.get? e).bind an.direction.receiver) :
        Run (List (Option NodeId))) := by
    induction edges with
    | nil => rfl
    | cons e edges ih =>
      obtain ⟨edge, he⟩ := h e List.mem_cons_self
      rw [List.mapM_cons, Arena.get_eq_ok_iff.2 he, ih fun d hd => h d (List.mem_cons_of_mem _ hd)]
      simp [he, bind, Except.bind, pure, Except.pure]
  rw [receivers, hmap]
  simp [bind, Except.bind, pure, Except.pure, List.filterMap_map]

/-- The analysis puts on each edge `e` on the far side of a node `n` the fact `f n e a`, where
    `a` is the join of what arrives at the node, in some order, and does nothing else. -/
def Follows [DecidableEq A] [Fact A] (an : Analysis A) (g : Graph) (p : Program)
    (f : NodeId → EdgeId → A → A) : Prop :=
  ∀ n ∈ g.order, ∀ m : FactMap A, ∃ edges : List EdgeId, edges.Perm (an.direction.outputs g n) ∧
    an.interpret n g p m =
      .ok (m.put edges fun e => some (f n e (m.joined (an.direction.inputs g n))))

/-- The same at one node, which need not be in order. -/
def FollowsAt [DecidableEq A] [Fact A] (an : Analysis A) (g : Graph) (p : Program)
    (f : NodeId → EdgeId → A → A) (n : NodeId) : Prop :=
  ∀ m : FactMap A, ∃ edges : List EdgeId, edges.Perm (an.direction.outputs g n) ∧
    an.interpret n g p m =
      .ok (m.put edges fun e => some (f n e (m.joined (an.direction.inputs g n))))

end Analysis

theorem mem_foldl_enqueue {ns queue : List NodeId} {k : NodeId} :
    k ∈ ns.foldl enqueue queue ↔ k ∈ queue ∨ k ∈ ns := by
  induction ns generalizing queue with
  | nil => simp
  | cons n ns ih => rw [List.foldl_cons, ih, mem_enqueue, List.mem_cons, or_assoc]

/-- Nodes join a queue behind those in it. -/
theorem exists_foldl_enqueue (ns queue : List NodeId) :
    ∃ later, ns.foldl enqueue queue = queue ++ later := by
  induction ns generalizing queue with
  | nil => exact ⟨[], by simp⟩
  | cons n ns ih =>
    obtain ⟨later, h⟩ := ih (enqueue queue n)
    rw [List.foldl_cons, h, enqueue]
    split
    · exact ⟨later, rfl⟩
    · exact ⟨n :: later, by simp⟩

/-- Nodes that are in a queue do not join it again. -/
theorem foldl_enqueue_of_subset {ns queue : List NodeId} (h : ∀ n ∈ ns, n ∈ queue) :
    ns.foldl enqueue queue = queue := by
  induction ns with
  | nil => rfl
  | cons n ns ih =>
    rw [List.forall_mem_cons] at h
    rw [List.foldl_cons, enqueue, if_pos h.1, ih h.2]

/-- A queue of distinct nodes is made by letting them join one by one. -/
theorem foldl_enqueue_nodup {ns : List NodeId} (h : ns.Nodup) : ns.foldl enqueue [] = ns := by
  suffices hs : ∀ queue, (queue ++ ns).Nodup → ns.foldl enqueue queue = queue ++ ns from hs [] h
  clear h
  induction ns with
  | nil => simp
  | cons n ns ih =>
    intro queue h
    have hn : n ∉ queue := fun hn =>
      (List.nodup_append.1 h).2.2 n hn n List.mem_cons_self rfl
    rw [List.foldl_cons, enqueue, if_neg hn, ih _ (by simpa using h)]
    simp

namespace Worklist

/-! ### One visit -/

section Visit

variable [DecidableEq A] [Fact A] {an : Analysis A} {g : Graph} {p : Program}
  {f : NodeId → EdgeId → A → A}

/-- The fact that a visit of `n` puts on the edge `e`. -/
def due (an : Analysis A) (g : Graph) (f : NodeId → EdgeId → A → A) (w : Worklist A) (n : NodeId)
    (e : EdgeId) : A :=
  f n e (w.facts.joined (an.direction.inputs g n))

/-- What a visit of `n` makes of the state `w`, the rest of the queue being `rest`. -/
structure Visited (an : Analysis A) (g : Graph) (f : NodeId → EdgeId → A → A) (n : NodeId)
    (rest : List NodeId) (w v : Worklist A) : Prop where
  facts : ∀ e, v.facts.get e =
    if e ∈ an.direction.outputs g n then some (due an g f w n e) else w.facts.get e
  initial : v.facts.initial = w.facts.initial
  changed : v.facts.changed = []
  behind : ∃ later, v.queue = rest ++ later
  mem_queue : ∀ k, k ∈ v.queue ↔ k ∈ rest ∨ ∃ e ∈ an.direction.outputs g n,
    w.facts.get e ≠ some (due an g f w n e) ∧ an.direction.Leads g e n k
  same : (∀ e ∈ an.direction.outputs g n, w.facts.get e ≠ some (due an g f w n e) →
    ∀ k, an.direction.Leads g e n k → k ∈ rest) → v.queue = rest

theorem visit_followsAt (hg : g.Indexed) {n : NodeId} (hf : an.FollowsAt g p f n)
    (rest : List NodeId) {w : Worklist A} (hw : w.facts.changed = []) :
    ∃ v, w.visit an g p n rest = .ok v ∧ Visited an g f n rest w v := by
  obtain ⟨edges, hperm, hint⟩ := hf w.facts
  let changed := edges.filter fun e => w.facts.get e ≠ some (due an g f w n e)
  have hchanged : (w.facts.put edges fun e => some (due an g f w n e)).changed = changed := by
    rw [w.facts.changed_put (hperm.nodup_iff.2 (an.direction.outputs_nodup hg)), hw,
      List.nil_append]
  -- Every changed edge leaves the node, so there is such an edge.
  have hedges : ∀ e ∈ changed, ∃ edge, g.edges.get? e = some edge := by
    intro e he
    obtain ⟨k, hk⟩ :=
      (an.direction.mem_outputs_iff hg).1 (hperm.mem_iff.1 (List.mem_filter.1 he).1)
    obtain ⟨edge, hedge, _⟩ := hk.receiver
    exact ⟨edge, hedge⟩
  have hvisit : w.visit an g p n rest = .ok {
      facts := (w.facts.put edges fun e => some (due an g f w n e)).settled
      queue := (changed.filterMap fun e =>
        (g.edges.get? e).bind an.direction.receiver).foldl enqueue rest
      updates := w.updates + changed.length } := by
    rw [visit, hint]
    change (an.receivers g (w.facts.put _ fun e => some (due an g f w n e)).changed >>= _) = _
    rw [hchanged, an.receivers_eq hedges, ← hchanged]
    rfl
  have hmem : ∀ k, k ∈ changed.filterMap (fun e =>
      (g.edges.get? e).bind an.direction.receiver) ↔ ∃ e ∈ an.direction.outputs g n,
        w.facts.get e ≠ some (due an g f w n e) ∧ an.direction.Leads g e n k := by
    intro k
    simp only [changed, List.mem_filterMap, List.mem_filter, decide_eq_true_eq,
      Option.bind_eq_some_iff, hperm.mem_iff]
    constructor
    · rintro ⟨e, ⟨he, hne⟩, edge, hedge, hr⟩
      obtain ⟨k', hk'⟩ := (an.direction.mem_outputs_iff hg).1 he
      obtain ⟨edge', hedge', hr'⟩ := hk'.receiver
      rw [hedge] at hedge'
      cases hedge'
      rw [hr] at hr'
      cases hr'
      exact ⟨e, he, hne, hk'⟩
    · rintro ⟨e, he, hne, hk⟩
      exact ⟨e, ⟨he, hne⟩, hk.receiver⟩
  refine ⟨_, hvisit, ?facts, ?initial, rfl, ?behind, ?mem, ?same⟩
  case facts =>
    intro e
    refine (w.facts.get_put edges (due an g f w n) e).trans ?_
    simp only [hperm.mem_iff]
  case initial => exact w.facts.initial_put _ (due an g f w n)
  case behind => exact exists_foldl_enqueue _ rest
  case mem =>
    intro k
    rw [mem_foldl_enqueue, hmem]
  case same =>
    intro h
    refine foldl_enqueue_of_subset fun k hk => ?_
    obtain ⟨e, he, hne, hk⟩ := (hmem k).1 hk
    exact h e he hne k hk

theorem visit_follows (hg : g.Indexed) (hf : an.Follows g p f) {n : NodeId} (hn : n ∈ g.order)
    (rest : List NodeId) {w : Worklist A} (hw : w.facts.changed = []) :
    ∃ v, w.visit an g p n rest = .ok v ∧ Visited an g f n rest w v :=
  visit_followsAt hg (hf n hn) rest hw

section Visited

omit [DecidableEq A]

variable {n : NodeId} {rest : List NodeId} {w v : Worklist A} (hg : g.Indexed)
  (hv : Visited an g f n rest w v)
include hg hv

omit hg in
/-- An edge that leaves the visited node holds what is due there. -/
theorem Visited.get_of_mem {e : EdgeId} (he : e ∈ an.direction.outputs g n) :
    v.facts.get e = some (due an g f w n e) := by
  rw [hv.facts e, if_pos he]

/-- An edge that leaves another node holds what it held before. -/
theorem Visited.get_of_ne {k : NodeId} (hkn : k ≠ n) {e : EdgeId}
    (he : e ∈ an.direction.outputs g k) : v.facts.get e = w.facts.get e := by
  refine (hv.facts e).trans (if_neg fun hout => hkn ?_)
  obtain ⟨_, hk⟩ := (an.direction.mem_outputs_iff hg).1 he
  obtain ⟨_, hn⟩ := (an.direction.mem_outputs_iff hg).1 hout
  exact (hk.unique hn).1

omit hg in
/-- No node outside the graph joins the queue. -/
theorem Visited.queued (hg : g.Wired) (hq : w.queue = n :: rest) (h : ∀ k ∈ w.queue, k ∈ g.order) :
    ∀ k ∈ v.queue, k ∈ g.order := by
  intro k hk
  rcases (hv.mem_queue k).1 hk with hk | ⟨e, _, _, hlead⟩
  · exact h k (hq ▸ List.mem_cons_of_mem _ hk)
  · exact (an.direction.mem_order_of_leads hg hlead).2

/-- After a visit, a node that is not in the queue is interpreted to what its edges hold. -/
theorem Visited.settled {seq : List NodeId} (hq : w.queue = n :: rest)
    (h : ∀ k ∈ seq, k ∉ w.queue → ∀ e ∈ an.direction.outputs g k,
      w.facts.get e = some (due an g f w k e)) :
    ∀ k ∈ seq, k ∉ v.queue → ∀ e ∈ an.direction.outputs g k,
      v.facts.get e = some (due an g f v k e) := by
  intro k hk hnot e he
  rw [hv.mem_queue, not_or] at hnot
  obtain ⟨hrest, hchanged⟩ := hnot
  -- No changed fact arrives at `k`, so what is due there is what was due before.
  have hsame : due an g f v k e = due an g f w k e := by
    refine congrArg (f k e) (FactMap.joined_congr hv.initial fun d hd => ?_)
    rw [hv.facts d]
    split
    · next hout =>
      obtain ⟨m, hm⟩ := (an.direction.mem_inputs_iff hg).1 hd
      obtain ⟨m', hm'⟩ := (an.direction.mem_outputs_iff hg).1 hout
      by_contra hne
      exact hchanged ⟨d, hout, Ne.symm hne, (hm'.unique hm).2 ▸ hm'⟩
    · rfl
  rw [hsame]
  by_cases hkn : k = n
  · subst hkn
    exact hv.get_of_mem he
  · rw [hv.get_of_ne hg hkn he]
    refine h k hk ?_ e he
    rw [hq, List.mem_cons, not_or]
    exact ⟨hkn, hrest⟩

end Visited

end Visit

/-! ### Runs -/

/-- The states that visits lead to. -/
inductive Reaches (an : Analysis A) (g : Graph) (p : Program) (w : Worklist A) : Worklist A → Prop
  | start : Reaches an g p w w
  | visit {u v : Worklist A} {n : NodeId} {rest : List NodeId} : Reaches an g p w u →
    u.queue = n :: rest → u.visit an g p n rest = .ok v → Reaches an g p w v

variable {an : Analysis A} {g : Graph} {p : Program} {Inv : Worklist A → Prop}

theorem run_succ {w v : Worklist A} {n : NodeId} {rest : List NodeId} (hq : w.queue = n :: rest)
    (hv : w.visit an g p n rest = .ok v) (bound : Nat) :
    run an g p (bound + 1) w = run an g p bound v := by
  rw [run]
  simp only [hq, hv]

/-- What every visit keeps holds in every state that visits lead to. -/
theorem Reaches.invariant
    (hstep : ∀ w n rest, Inv w → w.queue = n :: rest → ∃ v, w.visit an g p n rest = .ok v ∧ Inv v)
    {w v : Worklist A} (hw : Inv w) (h : Reaches an g p w v) : Inv v := by
  induction h with
  | start => exact hw
  | visit _ hq hv ih =>
    obtain ⟨v', hv', hinv⟩ := hstep _ _ _ ih hq
    rw [hv] at hv'
    cases hv'
    exact hinv

/-- A run ends if every visit is possible and lowers something well-founded. -/
theorem exists_run {r : Worklist A → Worklist A → Prop} (hr : WellFounded r)
    (hstep : ∀ w n rest, Inv w → w.queue = n :: rest →
      ∃ v, w.visit an g p n rest = .ok v ∧ Inv v ∧ r v w)
    {w : Worklist A} (hw : Inv w) :
    ∃ bound v, run an g p bound w = .ok v ∧ Inv v ∧ v.queue = [] := by
  induction w using hr.induction with
  | _ w ih =>
    cases hq : w.queue with
    | nil => exact ⟨0, w, by rw [run, hq], hw, hq⟩
    | cons n rest =>
      obtain ⟨v, hv, hinv, hlt⟩ := hstep w n rest hw hq
      obtain ⟨bound, u, hrun, hu, hnil⟩ := ih v hlt hinv
      exact ⟨bound + 1, u, (run_succ hq hv bound).trans hrun, hu, hnil⟩

theorem Reaches.head {w u v : Worklist A} {n : NodeId} {rest : List NodeId}
    (hq : w.queue = n :: rest) (hu : w.visit an g p n rest = .ok u) (h : Reaches an g p u v) :
    Reaches an g p w v := by
  induction h with
  | start => exact .visit .start hq hu
  | visit _ hq' hv ih => exact .visit ih hq' hv

/-- A run that ends leads to a state with nothing left to visit. -/
theorem run_reaches {bound : Nat} {w v : Worklist A} (h : run an g p bound w = .ok v) :
    Reaches an g p w v ∧ v.queue = [] := by
  induction bound generalizing w with
  | zero =>
    rw [run] at h
    split at h
    · next hq =>
      cases h
      exact ⟨.start, hq⟩
    · cases h
  | succ bound ih =>
    rw [run] at h
    split at h
    · next hq =>
      cases h
      exact ⟨.start, hq⟩
    · next hq =>
      dsimp only at h
      split at h
      · next hu => exact ⟨(ih h).1.head hq hu, (ih h).2⟩
      · cases h

/-- A run that ends interprets every node of its queue. -/
theorem exists_interpret_of_run {bound : Nat} {w v : Worklist A} {n : NodeId}
    (h : run an g p bound w = .ok v) (hn : n ∈ w.queue) :
    ∃ m m', an.interpret n g p m = .ok m' := by
  induction bound generalizing w with
  | zero =>
    rw [run] at h
    split at h
    · next hq => simp [hq] at hn
    · cases h
  | succ bound ih =>
    rw [run] at h
    split at h
    · next hq => simp [hq] at hn
    · next k rest hq =>
      dsimp only at h
      split at h
      · next u hu =>
        obtain ⟨facts, hint, hu⟩ := Run.bind_eq_ok.1 hu
        obtain ⟨receivers, _, hu⟩ := Run.bind_eq_ok.1 hu
        cases hu
        rw [hq, List.mem_cons] at hn
        rcases hn with rfl | hn
        · exact ⟨_, _, hint⟩
        · exact ih h (mem_foldl_enqueue.2 (.inl hn))
      · cases h

end Worklist

/-- Nodes in the sequence that facts flow through them. -/
def Direction.arrange : Direction → List NodeId → List NodeId
  | forward, ns => ns
  | backward, ns => ns.reverse

theorem Analysis.propagate_eq (an : Analysis A) (bound : Nat) (g : Graph) (p : Program)
    (m : FactMap A) (seed : List NodeId) : an.propagate bound g p m seed = (do
      let w ← Worklist.run an g p bound
        { facts := m.settled, queue := (an.direction.arrange seed).foldl enqueue [] }
      return (w.updates, w.facts)) := by
  rw [propagate]
  cases an.direction <;> rfl

theorem Analysis.settle_eq (an : Analysis A) (bound : Nat) (g : Graph) (p : Program) {m : FactMap A}
    (h : m.changed = []) : an.settle bound g p m = .ok m := by
  rw [settle, h]
  rfl

/-- Interpreting a node and settling the facts it changed is a visit of the node and a run. -/
theorem Analysis.exists_interpret {an : Analysis A} {g : Graph} {p : Program} {m : FactMap A}
    {n : NodeId} {w : Worklist A} (hdir : an.direction = .forward)
    (hvisit : Worklist.visit an g p n [] { facts := m, queue := [n] } = .ok w) :
    ∃ m', an.interpret n g p m = .ok m' ∧ ∀ bound, an.settle bound g p m' = (do
      return (← Worklist.run an g p bound { w with updates := 0 }).facts) := by
  obtain ⟨m', hinterpret, hvisit⟩ := Run.bind_eq_ok.1 hvisit
  obtain ⟨receivers, hreceivers, hvisit⟩ := Run.bind_eq_ok.1 hvisit
  cases hvisit
  refine ⟨m', hinterpret, fun bound => ?_⟩
  rw [settle]
  split
  · next hempty =>
    -- Nothing changed, so there is nothing to visit.
    have hnil : m'.changed = [] := List.isEmpty_iff.1 hempty
    rw [hnil] at hreceivers
    cases hreceivers
    have hsettled : m'.settled = m' := by
      obtain ⟨_, _, changed⟩ := m'
      subst hnil
      rfl
    rw [Worklist.run, hsettled]
    rfl
  · rw [hreceivers]
    change (an.propagate bound g p m'.settled receivers >>= _) = _
    rw [propagate_eq, hdir]
    change ((Worklist.run an g p bound { facts := m'.settled, queue := _ } >>= _) >>= _) = _
    rw [bind_assoc]
    rfl

end Dataflow
