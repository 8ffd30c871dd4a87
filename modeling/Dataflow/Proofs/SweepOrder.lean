import Dataflow.Probe
import Dataflow.Proofs.FragmentCopies
import Dataflow.Proofs.Integration
import Dataflow.Proofs.VisitingOrder

/-!
# A sweep comes to every node once

The sequence that a sweep goes through grows under it: a node that is replaced makes room for the
nodes of a fragment, which come next and may be replaced in turn. Forward, the first of them takes
the place of the node; backward, the sweep goes back up to the last. Either way it comes to each
node once, as long as rewrites leave the order of the graph alone but for the splice itself.

* `Graph.Becomes`: what operations can make of a graph. Without a change of its order they remove no
  node (`Graph.Becomes.removed_eq`);
* `Rewrite.KeepsOrder`: the rewrites in question;
* `Sweep.step_cases`: the ways that a step can go;
* `Sweep.At`: what a sweep has behind it and ahead of it, and what a step makes of that;
* `Sweep.Swept`: what a whole sweep leaves (`Sweep.At.run`);
* `RewritingAnalysis.judged_once`: the statement above.
-/

namespace Dataflow

/-! ### What operations make of a graph -/

namespace Graph

variable {g g' : Graph} {n : NodeId} {inserted : List NodeId}

/-- The graphs that the operations on graphs can make of `g`. -/
inductive Becomes (g : Graph) : Graph → Prop
  | refl : Becomes g g
  | addNode {h : Graph} (node : Node) : Becomes g h → Becomes g (h.addNode node)
  | addEdge {h : Graph} (source target : NodeId) (label : Option Label) : Becomes g h →
    Becomes g (h.addEdge source target label)
  | addInPort {h : Graph} (target : NodeId) : Becomes g h → Becomes g (h.addInPort target)
  | addOutPort {h : Graph} (source : NodeId) (label : Option Label) : Becomes g h →
    Becomes g (h.addOutPort source label)
  | withEnds {h : Graph} (entry exit : Option NodeId) : Becomes g h →
    Becomes g { h with entry, exit }
  | retarget {h : Graph} (r c : ExprId) : Becomes g h → Becomes g (h.retarget r c).2
  | splice {h f : Graph} (n : NodeId) : Becomes g h → f.Built → Becomes g (h.splice n f).2

theorem Becomes.built (h : g.Becomes g') (hg : g.Built) : g'.Built := by
  induction h with
  | refl => exact hg
  | addNode node _ ih => exact ih.addNode node
  | addEdge source target label _ ih => exact ih.addEdge source target label
  | addInPort target _ ih => exact ih.addInPort target
  | addOutPort source label _ ih => exact ih.addOutPort source label
  | withEnds entry exit _ ih => exact ih.withEnds entry exit
  | retarget r c _ ih => exact ih.retarget r c
  | splice n _ hf ih => exact ih.splice n hf

/-- Nodes are not taken away; and once the order or what is removed has changed, the order has a
    node that is new. -/
theorem Becomes.cases (h : g.Becomes g') (hg : g.Built) : g.nodes.size ≤ g'.nodes.size ∧
    (g'.order = g.order ∧ g'.removed = g.removed ∨ ∃ m ∈ g'.order, g.nodes.size ≤ m.index) := by
  induction h with
  | refl => exact ⟨Nat.le_refl _, .inl ⟨rfl, rfl⟩⟩
  | @addNode h node _ ih =>
    refine ⟨?_, .inr ⟨h.nodes.next, List.mem_append_right _ (List.mem_singleton_self _), ih.1⟩⟩
    rw [show (h.addNode node).nodes.size = h.nodes.size + 1 from Arena.size_push _ _]
    exact Nat.le_succ_of_le ih.1
  | addEdge _ _ _ _ ih | addInPort _ _ ih | addOutPort _ _ _ ih | withEnds _ _ _ ih => exact ih
  | retarget r c _ ih =>
    exact ⟨ih.1.trans (Nat.le_of_eq (Arena.size_foldl_modify _ _ _).symm), ih.2⟩
  | @splice h f n hh hf ih =>
    obtain ⟨hsize, ih⟩ := ih
    have hh := hh.built hg
    obtain ⟨err, _, heq⟩ | ⟨_, _, _, _, _, _, _, ⟨_, heq⟩ | ⟨_, _, heq⟩⟩ := splice_cases h n f
    · rw [heq]
      exact ⟨hsize, ih⟩
    · -- A splice that fails half-way leaves nodes, but not in order.
      rw [heq]
      generalize (h.nodes.get? n).bind Node.parent = parent
      obtain ⟨horder, hremoved, _⟩ := graft_frame h f parent
      rw [horder, hremoved, (hh.consistent.graft hf.consistent parent).2.2]
      exact ⟨hsize.trans (Nat.le_add_right _ _), ih⟩
    · have hreplaced := hh.replaced_of_splice hf heq
      rw [heq]
      refine ⟨hsize.trans hreplaced.size_le, .inr ?_⟩
      obtain ⟨before, after, hbefore⟩ := List.append_of_mem hreplaced.mem
      obtain ⟨m, hm⟩ := List.exists_mem_of_ne_nil _ hreplaced.ne_nil
      refine ⟨m, ?_, hsize.trans (hreplaced.fresh m hm)⟩
      rw [hreplaced.order before after hbefore]
      exact List.mem_append_left _ (List.mem_append_right _ hm)

/-- Operations that leave the order as it is remove no node. -/
theorem Becomes.removed_eq (h : g.Becomes g') (hg : g.Built) (horder : g'.order = g.order) :
    g'.removed = g.removed := by
  obtain ⟨_, ⟨_, hremoved⟩ | ⟨m, hm, hle⟩⟩ := h.cases hg
  · exact hremoved
  · exact absurd (hg.consistent.allocated m (horder ▸ hm)) (Nat.not_lt.2 hle)

/-- A node that is replaced after operations that left the order as it is. -/
theorem Replaced.of_becomes {h : Graph} (hh : g.Becomes h) (hg : g.Built)
    (horder : h.order = g.order) (hreplaced : h.Replaced n inserted g') :
    g.Replaced n inserted g' where
  mem := horder ▸ hreplaced.mem
  order before after hbefore := hreplaced.order before after (horder.trans hbefore)
  ne_nil := hreplaced.ne_nil
  fresh m hm := (hh.cases hg).1.trans (hreplaced.fresh m hm)
  size_le := (hh.cases hg).1.trans hreplaced.size_le
  removed m := by rw [hreplaced.removed, hh.removed_eq hg horder]

end Graph

/-- Rewrites that leave the order of the graph alone when they are tried, and whose fragments are
    made by operations on graphs. -/
structure Rewrite.KeepsOrder (T : Type) [Rewrite T] : Prop where
  transform : ∀ {t : T} {n : NodeId} {g : Graph} {p : Program} {a : Attempt T},
    Rewrite.transform t n g p = .ok a → g.Becomes a.graph ∧ a.graph.order = g.order
  fragment : ∀ {t : T} {p : Program} {f : Graph}, Rewrite.fragment t p = .ok (.ok f) → f.Built

variable {A T : Type} {d : Direction}

/-- What is left when such a rewrite was tried and its fragment spliced. -/
theorem Rewrite.KeepsOrder.replaced [Rewrite T] (hT : Rewrite.KeepsOrder T) {t t' : T} {n : NodeId}
    {g g' f : Graph} {p p' : Program} {a : Attempt T} {inserted : List NodeId} (hg : g.Built)
    (htransform : Rewrite.transform t n g p = .ok a)
    (hfragment : Rewrite.fragment t' p' = .ok (.ok f))
    (hsplice : a.graph.splice n f = (.ok inserted, g')) :
    g'.Built ∧ g.Replaced n inserted g' := by
  obtain ⟨hbecomes, horder⟩ := hT.transform htransform
  have hf := hT.fragment hfragment
  have ha := hbecomes.built hg
  have hspliced := ha.splice n hf
  rw [hsplice] at hspliced
  exact ⟨hspliced, (ha.replaced_of_splice hf hsplice).of_becomes hbecomes hg horder⟩

namespace Direction

theorem arrange_nodup {ns : List NodeId} : (d.arrange ns).Nodup ↔ ns.Nodup := by
  cases d with
  | forward => exact Iff.rfl
  | backward => exact List.nodup_reverse

/-- Where a node gives its place to others, so it does in the sequence of a sweep. -/
theorem arrange_replaced {g g' : Graph} {n : NodeId} {inserted behind ahead : List NodeId}
    (h : g.Replaced n inserted g') (hn : d.arrange g.order = behind ++ n :: ahead) :
    d.arrange g'.order = behind ++ (d.arrange inserted ++ ahead) := by
  cases d with
  | forward =>
    rw [arrange, h.order behind ahead hn, List.append_assoc]
    rfl
  | backward =>
    have horder : g.order = ahead.reverse ++ n :: behind.reverse := by
      rw [← List.reverse_reverse g.order, show g.order.reverse = _ from hn]
      simp
    rw [arrange, h.order _ _ horder]
    simp [arrange]

end Direction

namespace Sweep

variable {an : RewritingAnalysis A T} {options : Options} {s s' t : Sweep A} {n : NodeId}
  {behind ahead ns inserted : List NodeId}

/-! ### The ways that a step can go -/

/-- The node that the sweep comes to next, unless it is over. -/
def current (an : Analysis A) (s : Sweep A) : Option NodeId :=
  (s.place an).bind fun i => s.graph.order[i]?

theorem graph_advance (an : Analysis A) (s : Sweep A) : (s.advance an).graph = s.graph := by
  rw [advance]
  split <;> rfl

/-- What the sweep is like after a step at the node `n`: past the node, or with a fragment in place
    of it. -/
inductive Steps [Rewrite T] (an : RewritingAnalysis A T) (s : Sweep A) (n : NodeId) : Sweep A → Prop
  | passed {facts : FactMap A} {fuel : Fuel} :
    Steps an s n ({ s with facts, fuel }.advance an.toAnalysis)
  | replaced {rewrite rewrite' : T} {attempt : Attempt T} {f g' : Graph} {inserted : List NodeId}
      {facts : FactMap A} {fuel : Fuel} {place index : Nat} :
    Rewrite.transform rewrite n s.graph s.program = .ok attempt →
    attempt.outcome = .ok rewrite' → Rewrite.fragment rewrite' attempt.program = .ok (.ok f) →
    attempt.graph.splice n f = (.ok inserted, g') → s.place an.toAnalysis = some place →
    (an.direction = .forward → index = s.index) →
    (an.direction = .backward → index = place + inserted.length) →
    Steps an s n
      { graph := g', program := attempt.program, facts, fuel, index, rewrites := s.rewrites + 1 }

section Steps

variable [Rewrite T]

theorem steps_of_pass {facts m : FactMap A} {fuel : Fuel} {x : Progress (Sweep A)} {bound : Nat}
    (h : ({ s with facts, fuel } : Sweep A).pass an.toAnalysis bound m = .ok x) :
    ∃ s', x = .next s' ∧ Steps an s n s' := by
  obtain ⟨facts, _, hx⟩ := Run.bind_eq_ok.1 h
  cases hx
  exact ⟨_, rfl, .passed⟩

theorem steps_of_replace {facts : FactMap A} {fuel : Fuel} {place : Nat} {rewrite : T}
    {x : Progress (Sweep A)} (hplace : s.place an.toAnalysis = some place)
    (h : ({ s with facts, fuel } : Sweep A).replace an.toAnalysis options place n rewrite = .ok x) :
    (∃ e s', x = .failed e s') ∨ ∃ s', x = .next s' ∧ Steps an s n s' := by
  obtain ⟨attempt, htransform, h⟩ := Run.bind_eq_ok.1 h
  cases houtcome : attempt.outcome with
  | error e =>
    simp only [houtcome] at h
    cases h
    exact .inl ⟨_, _, rfl⟩
  | ok rewrite' =>
    simp only [houtcome, Run.bind_eq_ok] at h
    obtain ⟨fragment, hfragment, h⟩ := h
    cases fragment with
    | error e =>
      cases h
      exact .inl ⟨_, _, rfl⟩
    | ok f =>
      cases hspliced : attempt.graph.splice n f with
      | mk spliced g' =>
        simp only [hspliced] at h
        cases spliced with
        | error e =>
          cases h
          exact .inl ⟨_, _, rfl⟩
        | ok inserted =>
          dsimp only at h
          split at h
          · cases h
            exact .inl ⟨_, _, rfl⟩
          · obtain ⟨facts, _, hx⟩ := Run.bind_eq_ok.1 h
            cases hx
            refine .inr ⟨_, rfl, .replaced htransform houtcome hfragment hspliced hplace ?_ ?_⟩
            · intro hdir
              rw [hdir]
            · intro hdir
              rw [hdir]

/-- A sweep is over, or asks for a verdict on a node and then fails or goes on. -/
theorem step_cases {x : Progress (Sweep A)} (h : s.step an options = .ok x) :
    x = .done ∧ s.current an.toAnalysis = none ∨ ∃ n, s.current an.toAnalysis = some n ∧
      ((∃ e s', x = .failed e s') ∨ ∃ s', x = .next s' ∧ Steps an s n s') := by
  rw [step] at h
  rw [current]
  cases hplace : s.place an.toAnalysis with
  | none =>
    simp only [hplace] at h
    cases h
    exact .inl ⟨rfl, rfl⟩
  | some place =>
    simp only [hplace] at h
    rw [Option.bind_some]
    cases hn : s.graph.order[place]? with
    | none =>
      simp only [hn] at h
      cases h
      exact .inl ⟨rfl, rfl⟩
    | some n =>
      refine .inr ⟨n, rfl, ?_⟩
      simp only [hn] at h
      obtain ⟨⟨verdict, m⟩, _, h⟩ := Run.bind_eq_ok.1 h
      cases verdict with
      | interpreted => exact .inr (steps_of_pass h)
      | replace rewrite =>
        obtain ⟨⟨allowed, fuel⟩, _, h⟩ := Run.bind_eq_ok.1 h
        cases allowed with
        | true => exact steps_of_replace hplace h
        | false =>
          obtain ⟨m', _, h⟩ := Run.bind_eq_ok.1 h
          exact .inr (steps_of_pass h)

end Steps

/-! ### What a sweep has behind it and ahead of it -/

/-- The sweep has come past the nodes `behind` and will come to the nodes `ahead`, in this
    sequence. -/
structure At (d : Direction) (s : Sweep A) (behind ahead : List NodeId) : Prop where
  order : d.arrange s.graph.order = behind ++ ahead
  forward : d = .forward → s.index = behind.length
  backward : d = .backward → s.index = ahead.length

namespace At

/-- The sweep has everything ahead. -/
theorem start (hforward : d = .forward → s.index = 0)
    (hbackward : d = .backward → s.index = s.graph.order.length) :
    s.At d [] (d.arrange s.graph.order) := by
  refine ⟨rfl, hforward, fun hd => (hbackward hd).trans ?_⟩
  rw [hd, Direction.arrange, List.length_reverse]

/-- The next node is the first one ahead. -/
theorem current_eq (hs : s.At an.direction behind ahead) :
    s.current an.toAnalysis = ahead.head? := by
  have horder := hs.order
  cases hd : an.direction with
  | forward =>
    rw [hd, Direction.arrange] at horder
    simp only [current, place, hd, hs.forward hd, horder]
    cases ahead with
    | nil => simp
    | cons n ahead => simp
  | backward =>
    rw [hd, Direction.arrange] at horder
    have horder : s.graph.order = ahead.reverse ++ behind.reverse := by
      rw [← List.reverse_reverse s.graph.order, horder, List.reverse_append]
    simp only [current, place, hd, hs.backward hd, horder]
    cases ahead with
    | nil => simp
    | cons n ahead => simp

/-- The next node is not among the others. -/
theorem not_mem (hs : s.At d behind (n :: ahead)) (hbuilt : s.graph.Built) :
    n ∉ behind ∧ n ∉ ahead := by
  have hnodup : (d.arrange s.graph.order).Nodup :=
    Direction.arrange_nodup.2 hbuilt.consistent.order_nodup
  rw [hs.order, List.nodup_middle, List.nodup_cons, List.mem_append, not_or] at hnodup
  exact hnodup.1

/-- The sweep past the next node. -/
theorem pass (hs : s.At an.direction behind (n :: ahead)) (facts : FactMap A) (fuel : Fuel) :
    ({ s with facts, fuel }.advance an.toAnalysis).At an.direction (behind ++ [n]) ahead := by
  have horder := hs.order
  rw [List.append_cons] at horder
  cases hd : an.direction with
  | forward =>
    rw [hd] at horder
    simp only [advance, hd]
    exact ⟨horder, fun _ => by simp [hs.forward hd], nofun⟩
  | backward =>
    rw [hd] at horder
    simp only [advance, hd]
    exact ⟨horder, nofun, fun _ => by simp [hs.backward hd]⟩

/-- The sweep goes on with the nodes that took the place of the next one. -/
theorem replace (hs : s.At an.direction behind (n :: ahead)) {place : Nat}
    (hplace : s.place an.toAnalysis = some place)
    (hreplaced : s.graph.Replaced n inserted s'.graph)
    (hforward : an.direction = .forward → s'.index = s.index)
    (hbackward : an.direction = .backward → s'.index = place + inserted.length) :
    s'.At an.direction behind (an.direction.arrange inserted ++ ahead) where
  order := Direction.arrange_replaced hreplaced hs.order
  forward hd := (hforward hd).trans (hs.forward hd)
  backward hd := by
    -- The place of the node is the number of nodes that come before it in the order.
    have hahead : place = ahead.length := by
      simp only [Sweep.place, hd, hs.backward hd, List.length_cons] at hplace
      simpa using hplace.symm
    rw [hbackward hd, hd, hahead]
    simp [Direction.arrange, Nat.add_comm]

/-- What a step makes of a sweep: it comes past the next node, which it leaves as it is, or goes on
    with nodes that take its place. -/
theorem steps [Rewrite T] (hs : s.At an.direction behind (n :: ahead)) (hbuilt : s.graph.Built)
    (hT : Rewrite.KeepsOrder T) (h : Steps an s n s') :
    s'.graph = s.graph ∧ s'.At an.direction (behind ++ [n]) ahead ∨
      ∃ inserted, s'.graph.Built ∧ s.graph.Replaced n inserted s'.graph ∧
        s'.At an.direction behind (an.direction.arrange inserted ++ ahead) := by
  cases h with
  | passed => exact .inl ⟨graph_advance _ _, hs.pass _ _⟩
  | replaced htransform _ hfragment hsplice hplace hforward hbackward =>
    obtain ⟨hbuilt', hreplaced⟩ := hT.replaced hbuilt htransform hfragment hsplice
    exact .inr ⟨_, hbuilt', hreplaced, hs.replace hplace hreplaced hforward hbackward⟩

end At

/-! ### Whole sweeps -/

/-- What a sweep from `s` to `t` leaves that asked for verdicts on the nodes `ns`: those of them
    that are in order come after the nodes that it had behind it, and the others were removed. -/
structure Swept (d : Direction) (s t : Sweep A) (behind ahead ns : List NodeId) : Prop where
  built : t.graph.Built
  order : d.arrange t.graph.order = behind ++ ns.filter (· ∈ t.graph.order)
  nodup : ns.Nodup
  not_behind : ∀ m ∈ ns, m ∉ behind
  ahead : ∀ m ∈ ns, m ∈ ahead ∨ s.graph.nodes.size ≤ m.index
  removed : ∀ m, t.graph.removed.get m = true ↔
    s.graph.removed.get m = true ∨ m ∈ ns ∧ m ∉ t.graph.order

namespace Swept

/-- The sweep is over. -/
theorem refl (hbuilt : s.graph.Built) (hs : s.At d behind []) : Swept d s s behind [] [] where
  built := hbuilt
  order := hs.order
  nodup := .nil
  not_behind m hm := by cases hm
  ahead m hm := by cases hm
  removed m := by simp

/-- The sweep came past a node and went on. -/
theorem pass (hs : s.At d behind (n :: ahead)) (hbuilt : s.graph.Built)
    (hgraph : s'.graph = s.graph) (h : Swept d s' t (behind ++ [n]) ahead ns) :
    Swept d s t behind (n :: ahead) (n :: ns) := by
  have hn : n ∈ t.graph.order := by
    rw [← Direction.mem_arrange (d := d), h.order]
    simp
  refine ⟨h.built, ?order, List.nodup_cons.2 ⟨fun hmem => h.not_behind n hmem (by simp), h.nodup⟩,
    ?not_behind, ?ahead, fun m => ?removed⟩
  case order =>
    rw [h.order, List.filter_cons_of_pos (by simpa using hn), List.append_assoc]
    rfl
  case not_behind =>
    exact List.forall_mem_cons.2 ⟨(hs.not_mem hbuilt).1, fun m hm hmem =>
      h.not_behind m hm (List.mem_append_left _ hmem)⟩
  case ahead =>
    refine List.forall_mem_cons.2 ⟨.inl List.mem_cons_self, fun m hm => ?_⟩
    rw [← hgraph]
    exact (h.ahead m hm).imp_left (List.mem_cons_of_mem n)
  case removed =>
    rw [h.removed, hgraph, List.mem_cons]
    exact or_congr_right ⟨fun hm => ⟨.inr hm.1, hm.2⟩,
      fun hm => ⟨hm.1.resolve_left fun heq => hm.2 (heq ▸ hn), hm.2⟩⟩

/-- The sweep came to a node, which was replaced, and went on with what took its place. -/
theorem replace (hs : s.At d behind (n :: ahead)) (hbuilt : s.graph.Built)
    (hreplaced : s.graph.Replaced n inserted s'.graph)
    (h : Swept d s' t behind (d.arrange inserted ++ ahead) ns) :
    Swept d s t behind (n :: ahead) (n :: ns) := by
  obtain ⟨hbehind, hahead⟩ := hs.not_mem hbuilt
  have hlt := hbuilt.consistent.allocated n hreplaced.mem
  -- What the sweep comes to later was ahead already, or is new.
  have hlater : ∀ m ∈ ns, m ∈ ahead ∨ s.graph.nodes.size ≤ m.index := by
    intro m hm
    rcases h.ahead m hm with hmem | hle
    · rcases List.mem_append.1 hmem with hmem | hmem
      · exact .inr (hreplaced.fresh m (Direction.mem_arrange.1 hmem))
      · exact .inl hmem
    · exact .inr (hreplaced.size_le.trans hle)
  have hns : n ∉ ns := fun hmem =>
    (hlater n hmem).elim hahead fun hle => Nat.not_lt.2 hle hlt
  -- So the sweep does not come to the node again, and it is not in order at the end.
  have hn : n ∉ t.graph.order := by
    rw [← Direction.mem_arrange (d := d), h.order, List.mem_append, not_or]
    exact ⟨hbehind, fun hmem => hns (List.mem_of_mem_filter hmem)⟩
  refine ⟨h.built, ?order, List.nodup_cons.2 ⟨hns, h.nodup⟩, ?not_behind, ?ahead,
    fun m => ?removed⟩
  case order => rw [h.order, List.filter_cons_of_neg (by simpa using hn)]
  case not_behind => exact List.forall_mem_cons.2 ⟨hbehind, h.not_behind⟩
  case ahead =>
    exact List.forall_mem_cons.2 ⟨.inl List.mem_cons_self, fun m hm =>
      (hlater m hm).imp_left (List.mem_cons_of_mem n)⟩
  case removed =>
    rw [h.removed, hreplaced.removed, List.mem_cons]
    by_cases hm : n = m
    · subst hm
      simp [hn]
    · simp [hm, Ne.symm hm]

end Swept

/-- The nodes that a sweep asks for a verdict on, in `bound` steps at most. -/
def judged [Rewrite T] (an : RewritingAnalysis A T) (options : Options) :
    (bound : Nat) → Sweep A → List NodeId
  | 0, _ => []
  | bound + 1, s =>
    (s.current an.toAnalysis).toList ++
      match s.step an options with
      | .ok (.next s) => judged an options bound s
      | _ => []

/-- What a sweep leaves that comes to its end. The induction is on the steps left: each of them
    moves a node from ahead of the sweep to behind it, or puts others in its place. -/
theorem At.run [Rewrite T] {bound : Nat} (hs : s.At an.direction behind ahead)
    (hbuilt : s.graph.Built) (hT : Rewrite.KeepsOrder T)
    (h : run an options bound s = .ok (.ok (), t)) :
    Swept an.direction s t behind ahead (judged an options bound s) := by
  induction bound generalizing s behind ahead with
  | zero => cases h
  | succ bound ih =>
    rw [Sweep.run] at h
    rw [judged, hs.current_eq]
    cases hstep : s.step an options with
    | error fault => simp [hstep] at h
    | ok x =>
      rw [hstep] at h
      obtain ⟨rfl, hnone⟩ | ⟨n, hn, ⟨e, s', rfl⟩ | ⟨s', rfl, hsteps⟩⟩ := step_cases hstep
      · cases h
        rw [hs.current_eq, List.head?_eq_none_iff] at hnone
        subst hnone
        exact .refl hbuilt hs
      · cases h
      · rw [hs.current_eq] at hn
        obtain ⟨ahead, rfl⟩ := List.head?_eq_some_iff.1 hn
        obtain ⟨hgraph, hs'⟩ | ⟨inserted, hbuilt', hreplaced, hs'⟩ := hs.steps hbuilt hT hsteps
        · exact (ih hs' (hgraph ▸ hbuilt) h).pass hs hbuilt hgraph
        · exact (ih hs' hbuilt' h).replace hs hbuilt hreplaced

/-- A step removes no node but the one that it comes to, by a splice. -/
theorem Steps.removed [Rewrite T] (h : Steps an s n s') (hbuilt : s.graph.Built)
    (hT : Rewrite.KeepsOrder T) : s'.graph.Built ∧ ∀ m : NodeId, s.graph.removed.get m = false →
      s'.graph.removed.get m = true → m = n ∧ ∃ rewrite attempt f inserted,
        Rewrite.transform (T := T) rewrite n s.graph s.program = .ok attempt ∧
        attempt.graph.splice n f = (.ok inserted, s'.graph) := by
  cases h with
  | passed =>
    rw [graph_advance]
    exact ⟨hbuilt, fun m hkept hremoved => absurd (hkept.symm.trans hremoved) Bool.false_ne_true⟩
  | replaced htransform _ hfragment hsplice =>
    obtain ⟨hbuilt', hreplaced⟩ := hT.replaced hbuilt htransform hfragment hsplice
    refine ⟨hbuilt', fun m hkept hremoved => ?_⟩
    dsimp only at hremoved
    rw [hreplaced.removed] at hremoved
    split at hremoved
    · next hm => exact ⟨hm.symm, _, _, _, _, htransform, hsplice⟩
    · exact absurd (hkept.symm.trans hremoved) Bool.false_ne_true

theorem Reaches.built [Rewrite T] (h : Reaches an options s t) (hbuilt : s.graph.Built)
    (hT : Rewrite.KeepsOrder T) : t.graph.Built := by
  induction h with
  | refl => exact hbuilt
  | next _ hstep ih =>
    obtain ⟨hx, _⟩ | ⟨n, _, ⟨_, _, hx⟩ | ⟨s', hx, hsteps⟩⟩ := step_cases hstep
    · cases hx
    · cases hx
    · cases hx
      exact (hsteps.removed ih hT).1

end Sweep

namespace RewritingAnalysis

variable [Rewrite T]

/-- The nodes that the sweep of an integrated solve asks for a verdict on, in sequence. -/
def judged (an : RewritingAnalysis A T) (options : Options) (fuel : Fuel) (graph : Graph)
    (program : Program) : List NodeId :=
  match an.solve options.bound graph program with
  | .ok facts =>
    let index := match an.direction with
      | .forward => 0
      | .backward => graph.order.length
    Sweep.judged an options options.bound { graph, program, facts, fuel, index }
  | .error _ => []

/-- An integrated solve that succeeds asks for a verdict on no node twice. Those of the nodes that
    are live at the end are the order of the graph, in the sequence that facts flow; the others are
    the nodes that were removed on the way, each by the splice that followed its verdict. -/
theorem judged_once {an : RewritingAnalysis A T} {options : Options} {fuel : Fuel} {g : Graph}
    {p : Program} {i : Integration} {changed : Bool} (hT : Rewrite.KeepsOrder T) (hg : g.Built)
    (h : an.integrate options fuel g p = .ok i) (hok : i.outcome = .ok changed) :
    (an.judged options fuel g p).Nodup ∧
    (an.judged options fuel g p).filter i.graph.isLive = an.direction.arrange i.graph.order ∧
    (∀ m, m ∈ an.judged options fuel g p ∧ i.graph.isLive m = false ↔
      i.graph.removed.get m = true ∧ g.removed.get m = false) ∧
    ∀ s s', an.Reaches options fuel g p s → s.step an options = .ok (.next s') →
      ∀ m : NodeId, s.graph.removed.get m = false → s'.graph.removed.get m = true →
        s.current an.toAnalysis = some m ∧ ∃ rewrite attempt f inserted,
          Rewrite.transform (T := T) rewrite m s.graph s.program = .ok attempt ∧
          attempt.graph.splice m f = (.ok inserted, s'.graph) := by
  obtain ⟨facts, hfacts, h⟩ := Run.bind_eq_ok.1 h
  obtain ⟨⟨outcome, t⟩, hrun, h⟩ := Run.bind_eq_ok.1 h
  cases h
  cases outcome with
  | error e => cases hok
  | ok _ =>
    have hswept := Sweep.At.run (.start (fun hd => by simp only [hd]) fun hd => by simp only [hd])
      hg hT hrun
    simp only [judged, hfacts]
    generalize Sweep.judged an options options.bound _ = ns at hswept ⊢
    -- A node that was judged and is not in order at the end was removed.
    have hlive : ∀ m ∈ ns, t.graph.isLive m = decide (m ∈ t.graph.order) := by
      intro m hm
      by_cases hmem : m ∈ t.graph.order
      · rw [hswept.built.intact.isLive_eq hmem, decide_eq_true hmem]
      · have hremoved := (hswept.removed m).2 (.inr ⟨hm, hmem⟩)
        simp [Graph.isLive, hremoved, hmem]
    refine ⟨hswept.nodup, ?order, fun m => ⟨?gone, ?removed⟩, ?step⟩
    case order => rw [List.filter_congr hlive, hswept.order, List.nil_append]
    case gone =>
      rintro ⟨hm, hdead⟩
      rw [hlive m hm, decide_eq_false_iff_not] at hdead
      refine ⟨(hswept.removed m).2 (.inr ⟨hm, hdead⟩), ?_⟩
      rcases hswept.ahead m hm with hmem | hle
      · exact hg.intact.kept m (Direction.mem_arrange.1 hmem)
      · exact hg.intact.removed_eq_false hle
    case removed =>
      rintro ⟨hremoved, hkept⟩
      obtain hbefore | ⟨hm, hmem⟩ := (hswept.removed m).1 hremoved
      · exact absurd (hkept.symm.trans hbefore) Bool.false_ne_true
      · exact ⟨hm, (hlive m hm).trans (decide_eq_false hmem)⟩
    case step =>
      rintro s s' ⟨_, _, hreaches⟩ hstep m hkept hremoved
      obtain ⟨hx, _⟩ | ⟨n, hn, ⟨_, _, hx⟩ | ⟨_, hx, hsteps⟩⟩ := Sweep.step_cases hstep
      · cases hx
      · cases hx
      · cases hx
        obtain ⟨rfl, hspliced⟩ := (hsteps.removed (hreaches.built hg hT) hT).2 m hkept hremoved
        exact ⟨hn, hspliced⟩

end RewritingAnalysis

/-! ### Chains -/

/-- Operations repeated, each of which keeps graphs that operations made. -/
theorem Graph.Built.repeat {op : Graph → Graph} (hop : ∀ g : Graph, g.Built → (op g).Built)
    {g : Graph} (hg : g.Built) (k : Nat) : (k.repeat op g).Built := by
  induction k with
  | zero => exact hg
  | succ k ih => exact hop _ ih

theorem Chain.built (c : Chain) : c.graph.Built := by
  unfold graph
  extract_lets nodes row ends entered left
  have hnodes : nodes.Built := List.foldlRecOn _ _ .empty fun _ hg _ _ => hg.addNode _
  have hrow : row.Built := List.foldlRecOn _ _ hnodes fun _ hg _ _ => hg.addEdge _ _ _
  have hentered : entered.Built := by
    unfold entered
    split
    · exact .repeat (fun _ hg => hg.addInPort _) (hrow.withEnds _ _) _
    · exact hrow.withEnds _ _
  have hleft : left.Built := by
    unfold left
    split
    · exact .repeat (fun _ hg => hg.addOutPort _ _) hentered _
    · exact hentered
  exact hleft.withEnds _ _

/-- Chains leave the graph alone when they are tried. -/
theorem Chain.keepsOrder : Rewrite.KeepsOrder Chain where
  transform h := by
    cases h
    exact ⟨.refl, rfl⟩
  fragment h := by
    cases h
    exact Chain.built _

/-- Three nodes in a row. -/
def sampleRow : Graph :=
  ((((({} : Graph).addNode { kind := .block }).addNode { kind := .nop }).addNode
    { kind := .finish }).addEdge ⟨0⟩ ⟨1⟩ none).addEdge ⟨1⟩ ⟨2⟩ none

/-- Counts nodes from the end, and wants two nodes for each that does nothing, of which the second
    does nothing again. -/
def splitting : RewritingAnalysis Count Chain :=
  Probe.counter { direction := .backward, target := some (.named "Nop"),
                  replacement := { kinds := [.block, .nop] } } 0 3

/-- With fuel for two rewrites, a node of the first fragment is replaced by the second. -/
theorem judged_once_splitting : sampleRow.Built ∧ ∃ i,
    splitting.integrate { bound := 20 } (.limited 2) sampleRow {} = .ok i ∧ i.outcome = .ok true ∧
    splitting.judged { bound := 20 } (.limited 2) sampleRow {} =
      [⟨2⟩, ⟨1⟩, ⟨4⟩, ⟨6⟩, ⟨5⟩, ⟨3⟩, ⟨0⟩] ∧
    (splitting.judged { bound := 20 } (.limited 2) sampleRow {}).filter i.graph.isLive =
      [⟨2⟩, ⟨6⟩, ⟨5⟩, ⟨3⟩, ⟨0⟩] ∧ i.graph.removed.get ⟨4⟩ = true := by
  have hbuilt : sampleRow.Built :=
    .addEdge _ _ _ (.addEdge _ _ _ (.addNode _ (.addNode _ (.addNode _ .empty))))
  have houtcome : (do
      let i ← splitting.integrate { bound := 20 } (.limited 2) sampleRow {}
      return (i.outcome, i.graph.order, i.graph.isLive ⟨4⟩)) =
        Except.ok (.ok true, [⟨0⟩, ⟨3⟩, ⟨5⟩, ⟨6⟩, ⟨2⟩], false) := by
    decide +kernel
  have hjudged : splitting.judged { bound := 20 } (.limited 2) sampleRow {} =
      [⟨2⟩, ⟨1⟩, ⟨4⟩, ⟨6⟩, ⟨5⟩, ⟨3⟩, ⟨0⟩] := by
    decide +kernel
  obtain ⟨i, hi, houtcome⟩ := Run.bind_eq_ok.1 houtcome
  simp only [pure, Except.pure, Except.ok.injEq, Prod.mk.injEq] at houtcome
  obtain ⟨hok, horder, hdead⟩ := houtcome
  obtain ⟨_, hlive, hremoved, _⟩ :=
    RewritingAnalysis.judged_once Chain.keepsOrder hbuilt hi hok
  rw [horder] at hlive
  refine ⟨hbuilt, i, hi, hok, hjudged, hlive, ((hremoved ⟨4⟩).1 ⟨?_, hdead⟩).1⟩
  rw [hjudged]
  decide

end Dataflow
