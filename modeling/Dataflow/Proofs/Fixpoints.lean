import Dataflow.Proofs.VisitingOrder

/-!
# Where the solver ends, nothing is left to do

A visit changes facts on the far side of a node only, and whenever a fact on the near side of a node
changes, the node joins the queue. So a node that was visited and is not in the queue is *at rest*:
interpreting it again changes nothing. When the queue is empty, this holds of all nodes that were
visited, on every graph that the operations on graphs make, be it with ports or with edges to
nodes that are not there, and from whatever facts and nodes the solver began.

Facts are not joined here and need not be ordered: all that is asked of an analysis is that what
it puts on the far side of a node depends on the facts on the near side (`Analysis.SetsBy`).

* `Worklist.visited`: the nodes that a run visits;
* `Analysis.AtRest`: what one visit keeps of it (`Worklist.atRest_of_visit`) and a run in the end
  (`Worklist.atRest_of_run`);
* `propagate_fixpoint`: propagating ends at a fixpoint.
-/

namespace Dataflow

variable {A : Type} {an : Analysis A} {g : Graph} {p : Program} {n k : NodeId}

/-! ### Nodes that were visited -/

/-- The nodes that a run visits, in order, each as often as it is visited. -/
def Worklist.visited (an : Analysis A) (g : Graph) (p : Program) :
    (bound : Nat) → Worklist A → List NodeId
  | 0, _ => []
  | bound + 1, w =>
    match w.queue with
    | [] => []
    | n :: rest =>
      n :: match w.visit an g p n rest with
        | .ok v => visited an g p bound v
        | .error _ => []

/-- The nodes that are visited when facts are solved from the nodes of a seed. -/
def Analysis.visited (bound : Nat) (an : Analysis A) (g : Graph) (p : Program) (m : FactMap A)
    (seed : List NodeId) : List NodeId :=
  Worklist.visited an g p bound { facts := m.settled, queue := an.direction.queue seed }

theorem Worklist.visited_succ {w v : Worklist A} {rest : List NodeId} (hq : w.queue = n :: rest)
    (hv : w.visit an g p n rest = .ok v) (bound : Nat) :
    visited an g p (bound + 1) w = n :: visited an g p bound v := by
  rw [visited]
  simp only [hq, hv]

/-- A run that ends has nothing left to visit, or begins with a visit and goes on from there. -/
theorem Worklist.run_cases {bound : Nat} {w v : Worklist A} (h : run an g p bound w = .ok v) :
    w.queue = [] ∧ v = w ∨ ∃ n rest u b, bound = b + 1 ∧ w.queue = n :: rest ∧
      w.visit an g p n rest = .ok u ∧ run an g p b u = .ok v := by
  cases hq : w.queue with
  | nil =>
    rw [run, hq] at h
    exact .inl ⟨rfl, (Except.ok.inj h).symm⟩
  | cons n rest =>
    rw [run, hq] at h
    cases bound with
    | zero => cases h
    | succ b =>
      dsimp only at h
      split at h
      · next u hu => exact .inr ⟨n, rest, u, b, rfl, rfl, hu, h⟩
      · cases h

/-- A visit takes a node from the queue and leaves the others in it. -/
theorem Worklist.mem_queue_of_visit {w v : Worklist A} {rest : List NodeId}
    (h : w.visit an g p n rest = .ok v) (hk : k ∈ rest) : k ∈ v.queue := by
  obtain ⟨facts, _, h⟩ := Run.bind_eq_ok.1 h
  obtain ⟨receivers, _, h⟩ := Run.bind_eq_ok.1 h
  cases h
  exact mem_foldl_enqueue.2 (.inl hk)

/-- A run that ends visits every node of its queue. -/
theorem Worklist.mem_visited_of_mem_queue {bound : Nat} {w v : Worklist A}
    (h : run an g p bound w = .ok v) (hk : k ∈ w.queue) : k ∈ visited an g p bound w := by
  induction bound generalizing w with
  | zero =>
    rcases run_cases h with ⟨hq, _⟩ | ⟨_, _, _, _, hb, _⟩
    · rw [hq] at hk
      cases hk
    · cases hb
  | succ bound ih =>
    rcases run_cases h with ⟨hq, _⟩ | ⟨n, rest, u, b, hb, hq, hu, h⟩
    · rw [hq] at hk
      cases hk
    · cases hb
      rw [visited_succ hq hu, List.mem_cons]
      rw [hq, List.mem_cons] at hk
      exact hk.imp_right fun hk => ih h (mem_queue_of_visit hu hk)

/-! ### Facts on the two sides of a node -/

namespace Graph.Consistent

variable (hg : g.Consistent) (d : Direction) {e : EdgeId}
include hg

/-- Facts arrive at a node by the edges that it receives, whether they come from a node or not. -/
theorem mem_inputs_iff : e ∈ d.inputs g n ↔ (g.edges.get? e).bind d.receiver = some n := by
  cases d with
  | forward => exact hg.ins.mem_iff n e
  | backward => exact hg.outs.mem_iff n e

/-- Facts leave no two nodes on the same edge. -/
theorem outputs_unique (hn : e ∈ d.outputs g n) (hk : e ∈ d.outputs g k) : n = k := by
  cases d with
  | forward =>
    rw [Direction.outputs, hg.outs.mem_iff] at hn hk
    exact Option.some.inj (hn.symm.trans hk)
  | backward =>
    rw [Direction.outputs, hg.ins.mem_iff] at hn hk
    exact Option.some.inj (hn.symm.trans hk)

theorem exists_edge_of_mem_outputs (he : e ∈ d.outputs g n) :
    ∃ edge, g.edges.get? e = some edge := by
  cases d with
  | forward =>
    obtain ⟨edge, hedge, _⟩ := Option.bind_eq_some_iff.1 ((hg.outs.mem_iff n e).1 he)
    exact ⟨edge, hedge⟩
  | backward =>
    obtain ⟨edge, hedge, _⟩ := Option.bind_eq_some_iff.1 ((hg.ins.mem_iff n e).1 he)
    exact ⟨edge, hedge⟩

end Graph.Consistent

variable [DecidableEq A]

/-- Facts put on edges, of which some may come more than once, are recorded as changed where they
    differ from those before. -/
theorem FactMap.mem_changed_put (m : FactMap A) (edges : List EdgeId) (h : EdgeId → A)
    (d : EdgeId) : d ∈ (m.put edges fun e => some (h e)).changed ↔
      d ∈ m.changed ∨ d ∈ edges ∧ m.get d ≠ some (h d) := by
  induction edges generalizing m with
  | nil => simp [put]
  | cons e edges ih =>
    refine (ih (m.set e (h e))).trans ?_
    rw [changed_set, get_set, List.mem_cons]
    by_cases hd : d = e
    · subst hd
      by_cases heq : m.get d = some (h d) <;> simp [heq]
    · by_cases heq : m.get e = some (h e) <;> simp [heq, hd, Ne.symm hd]

/-- The analysis sets the edges on the far side of a node, one after the other as `edges` lists
    them, each to the fact that `out` gives for it from those on the near side; and it does nothing
    else. -/
structure Analysis.SetsBy (an : Analysis A) (g : Graph) (p : Program)
    (edges : NodeId → List EdgeId) (out : NodeId → A → List (Option A) → Run (EdgeId → A)) :
    Prop where
  mem_edges : ∀ n e, e ∈ edges n ↔ e ∈ an.direction.outputs g n
  interpret_eq : ∀ n m, an.interpret n g p m = (do
    let a ← out n m.initial ((an.direction.inputs g n).map m.get)
    return m.put (edges n) fun e => some (a e))

/-- Interpreting the node changes nothing. -/
def Analysis.AtRest (an : Analysis A) (g : Graph) (p : Program) (m : FactMap A) (n : NodeId) :
    Prop :=
  an.interpret n g p m = .ok m

section Sets

variable {edges : NodeId → List EdgeId} {out : NodeId → A → List (Option A) → Run (EdgeId → A)}
  (han : an.SetsBy g p edges out) {m : FactMap A}
include han

/-- A node is at rest where the edges on its far side hold the facts that they would be set to. -/
theorem Analysis.SetsBy.atRest_iff : an.AtRest g p m n ↔
    ∃ a, out n m.initial ((an.direction.inputs g n).map m.get) = .ok a ∧
      ∀ e ∈ an.direction.outputs g n, m.get e = some (a e) := by
  rw [AtRest, han.interpret_eq, Run.bind_eq_ok]
  refine exists_congr fun a => and_congr_right fun _ => ?_
  simp only [← han.mem_edges]
  constructor
  · intro hput e he
    have hget := m.get_put (edges n) a e
    rwa [Except.ok.inj hput, if_pos he] at hget
  · intro hget
    exact congrArg Except.ok (FactMap.put_eq_self hget)

namespace Worklist

variable {w v : Worklist A} {rest : List NodeId} (hg : g.Consistent)
include hg

/-- A visit sets the edges on the far side of the node, and the nodes that receive an edge whose
    fact changes join the queue. -/
theorem visit_sets (hw : w.facts.changed = []) (h : w.visit an g p n rest = .ok v) :
    ∃ a, out n w.facts.initial ((an.direction.inputs g n).map w.facts.get) = .ok a ∧
      v.facts = (w.facts.put (edges n) fun e => some (a e)).settled ∧
      ∀ k, k ∈ v.queue ↔ k ∈ rest ∨ ∃ e ∈ an.direction.outputs g n,
        w.facts.get e ≠ some (a e) ∧ e ∈ an.direction.inputs g k := by
  obtain ⟨facts, hfacts, h⟩ := Run.bind_eq_ok.1 h
  obtain ⟨receivers, hreceivers, h⟩ := Run.bind_eq_ok.1 h
  cases h
  rw [han.interpret_eq] at hfacts
  obtain ⟨a, ha, hfacts⟩ := Run.bind_eq_ok.1 hfacts
  cases hfacts
  have hchanged : ∀ e, e ∈ (w.facts.put (edges n) fun e => some (a e)).changed ↔
      e ∈ an.direction.outputs g n ∧ w.facts.get e ≠ some (a e) := by
    intro e
    rw [FactMap.mem_changed_put, hw, han.mem_edges]
    simp
  rw [an.receivers_eq fun e he =>
    hg.exists_edge_of_mem_outputs an.direction ((hchanged e).1 he).1] at hreceivers
  cases hreceivers
  refine ⟨a, ha, rfl, fun k => ?_⟩
  rw [mem_foldl_enqueue, List.mem_filterMap]
  simp only [hchanged, hg.mem_inputs_iff, and_assoc]

/-- After a visit, a node that was visited and is not in the queue is at rest: the one just visited
    unless a fact on its own near side changed, and any other if no such fact did. -/
theorem atRest_of_visit {V : List NodeId} (hq : w.queue = n :: rest) (hw : w.facts.changed = [])
    (h : w.visit an g p n rest = .ok v) (hV : ∀ k ∈ V, k ∉ w.queue → an.AtRest g p w.facts k) :
    ∀ k ∈ n :: V, k ∉ v.queue → an.AtRest g p v.facts k := by
  obtain ⟨a, ha, hfacts, hqueue⟩ := visit_sets han hg hw h
  have hget : ∀ e, v.facts.get e =
      if e ∈ an.direction.outputs g n then some (a e) else w.facts.get e := by
    intro e
    rw [hfacts, FactMap.get_settled, FactMap.get_put]
    simp only [han.mem_edges]
  have hinitial : v.facts.initial = w.facts.initial := by
    rw [hfacts]
    exact w.facts.initial_put _ a
  intro k hk hnot
  rw [hqueue, not_or] at hnot
  obtain ⟨hrest, hchanged⟩ := hnot
  -- No fact on the near side of `k` has changed, or else `k` would have joined the queue.
  have hinputs : (an.direction.inputs g k).map v.facts.get =
      (an.direction.inputs g k).map w.facts.get := by
    refine List.map_congr_left fun e he => ?_
    rw [hget]
    split
    · next hout =>
      by_contra hne
      exact hchanged ⟨e, hout, Ne.symm hne, he⟩
    · rfl
  rw [han.atRest_iff, hinputs, hinitial]
  by_cases hkn : k = n
  · subst hkn
    exact ⟨a, ha, fun e he => by rw [hget, if_pos he]⟩
  · have hrests := hV k (List.mem_of_ne_of_mem hkn hk) (by simp [hq, hkn, hrest])
    obtain ⟨b, hb, hout⟩ := han.atRest_iff.1 hrests
    refine ⟨b, hb, fun e he => ?_⟩
    rw [hget, if_neg fun hen => hkn (hg.outputs_unique an.direction he hen)]
    exact hout e he

/-- At the end of a run, all nodes that it visited are at rest. -/
theorem atRest_of_run {bound : Nat} {V : List NodeId} (hw : w.facts.changed = [])
    (hV : ∀ k ∈ V, k ∉ w.queue → an.AtRest g p w.facts k) (h : run an g p bound w = .ok v) :
    v.facts.changed = [] ∧
      ∀ k, k ∈ V ∨ k ∈ visited an g p bound w → an.AtRest g p v.facts k := by
  induction bound generalizing w V with
  | zero =>
    rcases run_cases h with ⟨hq, rfl⟩ | ⟨_, _, _, _, hb, _⟩
    · exact ⟨hw, fun k hk => hV k (hk.resolve_right List.not_mem_nil) (hq ▸ List.not_mem_nil)⟩
    · cases hb
  | succ bound ih =>
    rcases run_cases h with ⟨hq, rfl⟩ | ⟨n, rest, u, b, hb, hq, hu, h⟩
    · have hnone : visited an g p (bound + 1) v = [] := by
        rw [visited]
        simp only [hq]
      rw [hnone]
      exact ⟨hw, fun k hk => hV k (hk.resolve_right List.not_mem_nil) (hq ▸ List.not_mem_nil)⟩
    · cases hb
      obtain ⟨a, _, hfacts, _⟩ := visit_sets han hg hw hu
      have hu' : u.facts.changed = [] := by
        rw [hfacts]
        rfl
      obtain ⟨hv, hrests⟩ := ih hu' (atRest_of_visit han hg hq hw hu hV) h
      refine ⟨hv, fun k hk => hrests k ?_⟩
      rw [visited_succ hq hu, List.mem_cons] at hk
      rw [List.mem_cons]
      tauto

end Worklist

end Sets

omit [DecidableEq A] in
/-- A run that begins with nodes at rest visits each of them once and changes nothing. -/
theorem Worklist.run_of_atRest {bound : Nat} {w : Worklist A} (hw : w.facts.changed = [])
    (hrests : ∀ n ∈ w.queue, an.AtRest g p w.facts n) (hbound : w.queue.length ≤ bound) :
    run an g p bound w = .ok { w with queue := [] } := by
  obtain ⟨⟨initial, facts, changed⟩, queue, updates⟩ := w
  cases hw
  induction queue generalizing bound with
  | nil => rw [run]
  | cons n rest ih =>
    obtain ⟨bound, rfl⟩ := Nat.exists_eq_add_of_le' (Nat.le_of_add_left_le hbound)
    rw [List.forall_mem_cons] at hrests
    have hvisit : Worklist.visit an g p n rest ⟨⟨initial, facts, []⟩, n :: rest, updates⟩ =
        .ok ⟨⟨initial, facts, []⟩, rest, updates⟩ := by
      rw [visit, show an.interpret n g p ⟨initial, facts, []⟩ = _ from hrests.1]
      rfl
    rw [run_succ rfl hvisit]
    exact ih hrests.2 (Nat.le_of_succ_le_succ hbound)

/-- Where propagating facts ends, interpreting any node that was visited changes nothing, and the
    nodes of the seed are among these. So from then on, if the seed had all live nodes, facts are
    propagated from live nodes without a change. -/
theorem propagate_fixpoint (hg : g.Built) {edges : NodeId → List EdgeId}
    {out : NodeId → A → List (Option A) → Run (EdgeId → A)} (han : an.SetsBy g p edges out)
    {m m' : FactMap A} {seed : List NodeId} {bound updates : Nat}
    (h : an.propagate bound g p m seed = .ok (updates, m')) :
    (∀ n ∈ seed, n ∈ an.visited bound g p m seed) ∧
    (∀ n ∈ an.visited bound g p m seed, an.interpret n g p m' = .ok m') ∧
    ((∀ n, g.isLive n = true → n ∈ seed) → ∀ later, (∀ n ∈ later, g.isLive n = true) →
      ∀ B ≥ later.length, an.propagate B g p m' later = .ok (0, m')) := by
  rw [an.propagate_eq] at h
  obtain ⟨w, hrun, h⟩ := Run.bind_eq_ok.1 h
  cases h
  obtain ⟨hchanged, hrests⟩ := Worklist.atRest_of_run (V := []) han hg.consistent rfl
    (fun k hk => absurd hk List.not_mem_nil) hrun
  have hseed : ∀ n ∈ seed, n ∈ an.visited bound g p m seed := fun n hn =>
    Worklist.mem_visited_of_mem_queue hrun (Direction.mem_queue.2 hn)
  refine ⟨hseed, fun n hn => hrests n (.inr hn), fun hlive later hlater B hB => ?_⟩
  have hsettled : w.facts.settled = w.facts := by
    rw [FactMap.settled, ← hchanged]
  have hlength : (an.direction.queue later).length ≤ B := by
    refine le_trans ?_ hB
    exact Direction.queue_nodup.length_le_of_subset fun n hn => Direction.mem_queue.1 hn
  have hagain := Worklist.run_of_atRest
    (w := { facts := w.facts, queue := an.direction.queue later }) hchanged
    (fun n hn => hrests n (.inr (hseed n (hlive n (hlater n (Direction.mem_queue.1 hn)))))) hlength
  rw [an.propagate_eq, hsettled]
  exact Run.bind_eq_ok.2 ⟨_, hagain, rfl⟩

/-- An analysis that joins what arrives at a node and puts on every edge on the far side what
    follows from it is of this sort. -/
theorem Analysis.ofTransfer_setsBy [Fact A] (d : Direction) (initial : A)
    (after : NodeId → Graph → Program → A → Run (EdgeId → A)) (g : Graph) (p : Program) :
    (ofTransfer d initial fun n g p a => do
      let next ← after n g p a
      return fun e => some (next e)).SetsBy g p (d.outputs g) fun n initial arriving =>
        after n g p (Fact.joinAll initial (arriving.filterMap id)) where
  mem_edges _ _ := Iff.rfl
  interpret_eq n m := by
    have hjoined : m.joined (d.inputs g n) =
        Fact.joinAll m.initial (((d.inputs g n).map m.get).filterMap id) := by
      rw [FactMap.joined_eq_joinAll, List.filterMap_map, Function.id_comp]
    change ((after n g p (m.joined (d.inputs g n)) >>= _) >>= _) =
      after n g p (Fact.joinAll m.initial (((d.inputs g n).map m.get).filterMap id)) >>= _
    rw [← hjoined]
    exact bind_assoc _ _ _

/-- Two nodes with edges back and forth, the first with an edge to itself and a port into it, the
    second with an edge to a node that is not there. -/
def sampleFrayed : Graph :=
  let g : Graph := {}
  let g := g.addNode { kind := .nop }
  let g := g.addNode { kind := .nop }
  let g := g.addEdge ⟨0⟩ ⟨0⟩ none
  let g := g.addEdge ⟨0⟩ ⟨1⟩ none
  let g := g.addEdge ⟨1⟩ ⟨0⟩ none
  let g := g.addInPort ⟨0⟩
  g.addEdge ⟨1⟩ ⟨5⟩ none

/-- The nodes passed on some way from an edge on, to the end. -/
def passedBackward : Analysis Bits :=
  .ofTransfer .backward ⟨0⟩ fun n _ _ a => .ok fun e => some (passedAfter n e a)

/-- A map that has a fact where none was put by a visit, and one that is recorded as changed. -/
def factsFrayed : FactMap Bits :=
  (({ initial := ⟨0⟩ } : FactMap Bits).set ⟨4⟩ ⟨8⟩).set ⟨1⟩ ⟨4⟩

theorem propagate_fixpoint_frayed : sampleFrayed.Built ∧ ∃ m updates,
    passedBackward.propagate 10 sampleFrayed {} factsFrayed [⟨1⟩, ⟨0⟩, ⟨1⟩] = .ok (updates, m) ∧
    m.get ⟨3⟩ = some ⟨11⟩ ∧ passedBackward.interpret ⟨0⟩ sampleFrayed {} m = .ok m ∧
    passedBackward.propagate 3 sampleFrayed {} m [⟨0⟩, ⟨1⟩, ⟨0⟩] = .ok (0, m) := by
  have hbuilt : sampleFrayed.Built :=
    .addEdge _ _ _ (.addInPort _ (.addEdge _ _ _ (.addEdge _ _ _ (.addEdge _ _ _
      (.addNode _ (.addNode _ .empty))))))
  have hsets := Analysis.ofTransfer_setsBy .backward (⟨0⟩ : Bits)
    (fun n _ _ a => .ok fun e => passedAfter n e a) sampleFrayed {}
  obtain ⟨m, updates, hrun, hget⟩ : ∃ m updates,
      passedBackward.propagate 10 sampleFrayed {} factsFrayed [⟨1⟩, ⟨0⟩, ⟨1⟩] = .ok (updates, m) ∧
        m.get ⟨3⟩ = some ⟨11⟩ := ⟨_, _, rfl, by decide⟩
  obtain ⟨hvisited, hrests, hagain⟩ := propagate_fixpoint hbuilt hsets hrun
  have hlive : ∀ n, sampleFrayed.isLive n = true → n ∈ [(⟨1⟩ : NodeId), ⟨0⟩, ⟨1⟩] := by
    rintro ⟨i⟩ hi
    obtain _ | _ | i := i
    · decide
    · decide
    · exact absurd hi (by simp [Graph.isLive, Arena.contains, sampleFrayed, Graph.addNode,
        Graph.addEdge, Graph.addInPort, Arena.push])
  exact ⟨hbuilt, m, updates, hrun, hget, hrests _ (hvisited _ (by decide)),
    hagain hlive _ (by decide) 3 (le_refl _)⟩

end Dataflow
