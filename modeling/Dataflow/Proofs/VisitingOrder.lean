import Dataflow.Proofs.Building
import Dataflow.Proofs.ExactSolving
import Dataflow.Proofs.Loops
import Dataflow.Proofs.Termination
import Mathlib.Logic.Hydra

/-!
# The sequence in which nodes are visited

Propagating facts may begin with any nodes in any sequence. Where it ends, the facts solve the
equations of the analysis, so they are above the least solution. They are the least solution

* if the initial fact is below all others, on every graph and from every sequence
  (`propagate_eq_least_solution`): taking it where no fact has arrived yet does no harm;
* if each node that is entered at all is entered from a node before it in the sequence;
* if the edges lead no way around, so that there is one solution only (`Solves.unique`), and a
  visit can only ask for visits of nodes further down (`Tracking.exists_run`).

Otherwise they may be above it, and propagation may even go on for ever. For the values that
variables are known to hold, `propagate_eq_solve_of_timely` says when the sequence plays no part,
and `propagate_ne_solve` has a body and a sequence for which it does.
-/

namespace Dataflow

variable {A : Type}

/-- Nodes that join a queue of distinct nodes leave one. -/
theorem foldl_enqueue_nodup_of_nodup (ns : List NodeId) {queue : List NodeId}
    (h : queue.Nodup) : (ns.foldl enqueue queue).Nodup := by
  induction ns generalizing queue with
  | nil => exact h
  | cons n ns ih => exact ih (nodup_enqueue n h)

/-- The nodes of a seed in the sequence that they are visited first, each once. -/
def Direction.queue (d : Direction) (seed : List NodeId) : List NodeId :=
  (d.arrange seed).foldl enqueue []

namespace Direction

variable {d : Direction} {seed : List NodeId} {n : NodeId}

theorem mem_arrange : n ∈ d.arrange seed ↔ n ∈ seed := by
  cases d with
  | forward => exact Iff.rfl
  | backward => exact List.mem_reverse

theorem mem_queue : n ∈ d.queue seed ↔ n ∈ seed := by
  rw [queue, mem_foldl_enqueue, mem_arrange]
  simp

theorem queue_nodup : (d.queue seed).Nodup :=
  foldl_enqueue_nodup_of_nodup _ .nil

end Direction

/-- Propagating on a map without facts is a run of the solver. -/
theorem Analysis.propagate_eq_run (an : Analysis A) (bound : Nat) (g : Graph) (p : Program)
    (seed : List NodeId) : an.propagate bound g p { initial := an.initial } seed = (do
      let w ← Worklist.run an g p bound (an.startFrom (an.direction.queue seed))
      return (w.updates, w.facts)) :=
  an.propagate_eq bound g p _ seed

/-! ### Facts whose initial one is below all others -/

/-- Monotone functions make facts grow, from a sequence in which a fact arrives at each node before
    it is visited or the initial fact is below those that can arrive. -/
theorem Fact.Lawful.growingFrom [Fact A] (hlaw : Fact.Lawful A) {an : Analysis A} {g : Graph}
    (hg : g.Wired) {f : NodeId → EdgeId → A → A} {seq : List NodeId} (hnodup : seq.Nodup)
    (hseq : ∀ n ∈ g.order, n ∈ seq)
    (hfounded : ∀ n ∈ g.order, an.direction.inputs g n ≠ [] →
      (∃ e k, an.direction.Leads g e k n ∧ Precedes seq k n) ∨
        ∀ e k, an.direction.Leads g e k n → ∀ a, Fact.Below an.initial (f k e a))
    (hmono : ∀ n ∈ g.order, ∀ e ∈ an.direction.outputs g n, ∀ a b, Fact.Below a b →
      Fact.Below (f n e a) (f n e b)) :
    letI := hlaw.semilattice
    GrowingFrom an g f Set.univ seq :=
  letI := hlaw.semilattice
  { join := fun _ _ => rfl
    indexed := hg.toIndexed
    nodup := hnodup
    closed := fun _ _ _ k hlead => hseq k (an.direction.mem_order_of_leads hg hlead).2
    founded := fun n _ hin => hfounded n (an.direction.mem_order_of_inputs hg hin) hin
    monotone := fun n _ e he a b hab =>
      hmono n (an.direction.mem_order_of_outputs hg he) e he a b hab
    initial_mem := trivial
    sup_mem := fun _ _ _ _ => trivial
    mem := fun _ _ _ _ _ _ => trivial }

/-- Where facts grow, the solver ends with the least solution. -/
theorem GrowingFrom.exists_least [DecidableEq A] [Fact A] [SemilatticeSup A] {an : Analysis A}
    {g : Graph} {p : Program} {f : NodeId → EdgeId → A → A} {S : Set A} [WellFoundedGT S]
    {seq : List NodeId} (hf : GrowingFrom an g f S seq) (hg : g.Wired)
    (hseq : ∀ n ∈ g.order, n ∈ seq) (hfollows : ∀ n ∈ seq, an.FollowsAt g p f n) :
    ∃ bound w φ, (∀ B ≥ bound, Worklist.run an g p B (an.startFrom seq) = .ok w) ∧
      w.facts.initial = an.initial ∧ w.facts.changed = [] ∧ w.facts.Holds g φ ∧
      an.Solves g f φ ∧
      ∀ ψ, an.Solves g f ψ → ∀ e edge, g.edges.get? e = some edge → φ e ≤ ψ e := by
  obtain ⟨bound, w, hw, hq, hrun⟩ := hf.exists_run hfollows
  obtain ⟨φ, hφ⟩ := hw.exists_holds hg hseq hq
  exact ⟨bound, w, φ, hrun, hw.initial, hw.changed, hφ⟩

/-- The least solution is the same, whatever the sequence. -/
theorem GrowingFrom.exists_run_holds [DecidableEq A] [Fact A] [SemilatticeSup A] {an : Analysis A}
    {g : Graph} {p : Program} {f : NodeId → EdgeId → A → A} {S : Set A} [WellFoundedGT S]
    {seq : List NodeId} (hf : GrowingFrom an g f S seq) (hg : g.Wired)
    (hseq : ∀ n ∈ g.order, n ∈ seq) (hfollows : ∀ n ∈ seq, an.FollowsAt g p f n)
    {φ : EdgeId → A} (hφ : an.Solves g f φ)
    (hleast : ∀ ψ, an.Solves g f ψ → ∀ e edge, g.edges.get? e = some edge → φ e ≤ ψ e) :
    ∃ bound w, (∀ B ≥ bound, Worklist.run an g p B (an.startFrom seq) = .ok w) ∧
      w.facts.initial = an.initial ∧ w.facts.changed = [] ∧ w.facts.Holds g φ := by
  obtain ⟨bound, w, ψ, hrun, hinit, hchanged, hψ, hsolves, hleast'⟩ :=
    hf.exists_least hg hseq hfollows
  exact ⟨bound, w, hrun, hinit, hchanged, hψ.congr fun e edge he =>
    le_antisymm (hleast' φ hφ e edge he) (hleast ψ hsolves e edge he)⟩

/-- Where the initial fact is below all others, propagating a monotone analysis ends with its
    least solution, from every seed that has the nodes in order among others. The graph is any
    that the operations on graphs make and that passes verification. -/
theorem propagate_eq_least_solution [DecidableEq A] [Fact A] (hlaw : Fact.Lawful A)
    (hbound : Fact.Bounded A) {an : Analysis A} (hinit : ∀ a, Fact.join an.initial a = a)
    {g : Graph} (hg : g.Built) (hverify : g.verify = .ok ()) {p : Program}
    {f : NodeId → EdgeId → A → A} (hfollows : an.Follows g p f)
    (hmono : ∀ n ∈ g.order, ∀ e ∈ an.direction.outputs g n, ∀ a b, Fact.Below a b →
      Fact.Below (f n e a) (f n e b)) :
    ∃ φ, an.Solves g f φ ∧
      (∀ ψ, an.Solves g f ψ → ∀ e edge, g.edges.get? e = some edge → Fact.Below (φ e) (ψ e)) ∧
      ∀ seed, (∀ n ∈ g.order, n ∈ seed) → (∀ n ∈ seed, an.FollowsAt g p f n) →
        ∃ bound m, (∀ B ≥ bound, ∃ updates,
            an.propagate B g p { initial := an.initial } seed = .ok (updates, m)) ∧
          m.initial = an.initial ∧ m.changed = [] ∧ m.Holds g φ := by
  let _ := hlaw.semilattice
  have _ := hbound.wellFoundedGT hlaw
  have hwired := hg.consistent.wired hverify
  have hqueue : ∀ seed, (∀ n ∈ g.order, n ∈ seed) → ∀ n ∈ g.order, n ∈ an.direction.queue seed :=
    fun seed hseed n hn => Direction.mem_queue.2 (hseed n hn)
  have hgrow : ∀ seed, (∀ n ∈ g.order, n ∈ seed) →
      GrowingFrom an g f Set.univ (an.direction.queue seed) := fun seed hseed =>
    hlaw.growingFrom hwired Direction.queue_nodup (hqueue seed hseed)
      (fun _ _ _ => .inr fun e k _ a => hinit (f k e a)) hmono
  -- One seed shows that there is a least solution, and from every seed facts grow toward it.
  obtain ⟨_, _, φ, _, _, _, _, hsolves, hleast⟩ := (hgrow g.order fun _ hn => hn).exists_least
    hwired (hqueue g.order fun _ hn => hn) fun n hn => hfollows n (Direction.mem_queue.1 hn)
  refine ⟨φ, hsolves, hleast, fun seed hseed hat => ?_⟩
  obtain ⟨bound, w, hrun, hinit', hchanged, hφ⟩ := (hgrow seed hseed).exists_run_holds
    hwired (hqueue seed hseed) (fun n hn => hat n (Direction.mem_queue.1 hn)) hsolves hleast
  refine ⟨bound, w.facts, fun B hB => ⟨w.updates, ?_⟩, hinit', hchanged, hφ⟩
  rw [an.propagate_eq_run, hrun B hB]
  rfl

/-- An irreducible graph, and a seed that goes through its ring against the edges and has a node
    twice. -/
theorem propagate_eq_least_solution_ring : Inlining.ring.Built ∧ Inlining.ring.verify = .ok () ∧
    ∃ φ bound m, passed.Solves Inlining.ring passedAfter φ ∧ (∀ B ≥ bound, ∃ updates,
        passed.propagate B Inlining.ring Inlining.ringProgram { initial := passed.initial }
          [⟨2⟩, ⟨3⟩, ⟨1⟩, ⟨2⟩, ⟨0⟩] = .ok (updates, m)) ∧ m.Holds Inlining.ring φ := by
  have hfollows : ∀ n, passed.FollowsAt Inlining.ring Inlining.ringProgram passedAfter n :=
    fun _ _ => ⟨_, List.Perm.refl _, rfl⟩
  obtain ⟨φ, hsolves, _, hseeds⟩ := propagate_eq_least_solution Bits.lawful Bits.bounded
    (fun a => congrArg Bits.mk UInt32.zero_or) Inlining.ring_built rfl (fun n _ => hfollows n)
    fun n _ e _ => passedAfter_monotone n e
  obtain ⟨bound, m, hrun, _, _, hm⟩ :=
    hseeds [⟨2⟩, ⟨3⟩, ⟨1⟩, ⟨2⟩, ⟨0⟩] (by decide) fun n _ => hfollows n
  exact ⟨Inlining.ring_built, rfl, φ, bound, m, hsolves, hrun, hm⟩

/-! ### Propagation from anywhere -/

/-- A queue of distinct nodes stays one. -/
theorem Worklist.visit_nodup {an : Analysis A} {g : Graph} {p : Program} {w v : Worklist A}
    {n : NodeId} {rest : List NodeId} (h : w.visit an g p n rest = .ok v) (hrest : rest.Nodup) :
    v.queue.Nodup := by
  obtain ⟨facts, _, h⟩ := Run.bind_eq_ok.1 h
  obtain ⟨receivers, _, h⟩ := Run.bind_eq_ok.1 h
  cases h
  exact foldl_enqueue_nodup_of_nodup _ hrest

section Tracking

variable [Fact A]

/-- The solver's state on the way from a map without facts, where it began with the nodes `seq` to
    visit. -/
structure Tracking (an : Analysis A) (g : Graph) (f : NodeId → EdgeId → A → A) (seq : List NodeId)
    (w : Worklist A) : Prop where
  initial : w.facts.initial = an.initial
  changed : w.facts.changed = []
  on_edge : ∀ e a, w.facts.get e = some a → ∃ n k, an.direction.Leads g e n k
  queued : ∀ n ∈ w.queue, n ∈ seq
  nodup : w.queue.Nodup
  settled : ∀ n ∈ g.order, n ∉ w.queue → ∀ e ∈ an.direction.outputs g n,
    w.facts.get e = some (Worklist.due an g f w n e)

namespace Tracking

variable {an : Analysis A} {g : Graph} {p : Program} {f : NodeId → EdgeId → A → A}
  {seq : List NodeId} {w v : Worklist A} {n : NodeId} {rest : List NodeId}

theorem start (an : Analysis A) {g : Graph} (f : NodeId → EdgeId → A → A) {seq : List NodeId}
    (hnodup : seq.Nodup) (hseq : ∀ n ∈ g.order, n ∈ seq) :
    Tracking an g f seq (an.startFrom seq) where
  initial := rfl
  changed := rfl
  on_edge e a h := by simp at h
  queued n hn := hn
  nodup := hnodup
  settled n hn hq := absurd (hseq n hn) hq

theorem visit (h : Tracking an g f seq w) (hg : g.Wired) (hseq : ∀ n ∈ g.order, n ∈ seq)
    (hq : w.queue = n :: rest) (hvisit : w.visit an g p n rest = .ok v)
    (hv : Worklist.Visited an g f n rest w v) : Tracking an g f seq v where
  initial := hv.initial.trans h.initial
  changed := hv.changed
  on_edge e a ha := by
    rw [hv.facts e] at ha
    split at ha
    · next he => exact ⟨n, (an.direction.mem_outputs_iff hg.toIndexed).1 he⟩
    · exact h.on_edge e a ha
  queued k hk := by
    rcases (hv.mem_queue k).1 hk with hk | ⟨e, _, _, hlead⟩
    · exact h.queued k (hq ▸ List.mem_cons_of_mem _ hk)
    · exact hseq k (an.direction.mem_order_of_leads hg hlead).2
  nodup := Worklist.visit_nodup hvisit (List.nodup_cons.1 (hq ▸ h.nodup)).2
  settled := hv.settled hg.toIndexed hq h.settled

/-- Where propagation has ended, the facts solve the equations. -/
theorem exists_holds (h : Tracking an g f seq w) (hg : g.Wired) (hq : w.queue = []) :
    ∃ φ, w.facts.Holds g φ ∧ an.Solves g f φ :=
  Worklist.exists_holds hg h.initial h.on_edge fun n hn e he => h.settled n hn (by simp [hq]) e he

section Runs

variable [DecidableEq A] (hg : g.Wired) (hnodup : seq.Nodup) (hseq : ∀ n ∈ g.order, n ∈ seq)
  (hfollows : ∀ n ∈ seq, an.FollowsAt g p f n)
include hg hseq hfollows

theorem exists_visit (h : Tracking an g f seq w) (hq : w.queue = n :: rest) :
    ∃ v, w.visit an g p n rest = .ok v ∧ Worklist.Visited an g f n rest w v ∧
      Tracking an g f seq v := by
  obtain ⟨v, hvisit, hv⟩ := Worklist.visit_followsAt hg.toIndexed
    (hfollows n (h.queued n (hq ▸ List.mem_cons_self))) rest h.changed
  exact ⟨v, hvisit, hv, h.visit hg hseq hq hvisit hv⟩

include hnodup

theorem of_run {B : Nat} (hrun : Worklist.run an g p B (an.startFrom seq) = .ok w) :
    Tracking an g f seq w ∧ w.queue = [] := by
  obtain ⟨hreaches, hq⟩ := Worklist.run_reaches hrun
  refine ⟨hreaches.invariant (fun w n rest hw hq => ?_) (start an f hnodup hseq), hq⟩
  obtain ⟨v, hvisit, _, hv⟩ := hw.exists_visit hg hseq hfollows hq
  exact ⟨v, hvisit, hv⟩

end Runs

end Tracking

end Tracking

/-! ### Edges that lead no way around -/

/-- Every edge leads facts to a node further down in the sequence of solving. -/
def Direction.Straight (d : Direction) (g : Graph) : Prop :=
  ∀ e k n, d.Leads g e k n → Precedes (d.sequence g) k n

/-- There is no endless way from node to node. -/
theorem Direction.Straight.wellFounded {d : Direction} {g : Graph} (h : d.Straight g)
    (hg : g.Wired) : WellFounded fun k n => ∃ e, d.Leads g e n k := by
  let left (n : NodeId) : Nat := (d.sequence g).length - (d.sequence g).idxOf n
  refine Subrelation.wf ?_ (InvImage.wf left wellFounded_lt)
  rintro k n ⟨e, hlead⟩
  have hlt := (h e n k hlead).idxOf_lt (d.sequence_nodup hg.toIndexed)
  have hk : k ∈ d.sequence g := Direction.mem_sequence.2 (d.mem_order_of_leads hg hlead).2
  exact Nat.sub_lt_sub_left (Nat.lt_trans hlt (List.idxOf_lt_length_of_mem hk)) hlt

/-- A visit takes a node off the queue, for some of those that it has edges to. -/
theorem Worklist.Visited.cutExpand [Fact A] {an : Analysis A} {g : Graph}
    {f : NodeId → EdgeId → A → A} {n : NodeId} {rest : List NodeId} {w v : Worklist A}
    (hv : Visited an g f n rest w v) (hq : w.queue = n :: rest) (hnodup : v.queue.Nodup) :
    Relation.CutExpand (fun k n => ∃ e, an.direction.Leads g e n k)
      (v.queue : Multiset NodeId) (w.queue : Multiset NodeId) := by
  obtain ⟨later, hlater⟩ := hv.behind
  rw [hlater] at hnodup
  refine ⟨later, n, fun k hk => ?_, ?_⟩
  · -- A node that joins the queue was not there, so it is one that the node visited has an edge to.
    have hmem : k ∈ v.queue := by
      rw [hlater]
      exact List.mem_append_right _ hk
    have hnot : k ∉ rest := fun hrest => (List.nodup_append.1 hnodup).2.2 k hrest k hk rfl
    obtain ⟨e, _, _, hlead⟩ := ((hv.mem_queue k).1 hmem).resolve_left hnot
    exact ⟨e, hlead⟩
  · rw [hlater, hq, ← Multiset.coe_add, ← Multiset.cons_coe, ← Multiset.singleton_add,
      add_comm, add_assoc]

section Straight

variable [Fact A] {an : Analysis A} {g : Graph} {p : Program} {f : NodeId → EdgeId → A → A}
  {seq : List NodeId} (hg : g.Wired) (hstraight : an.direction.Straight g)
include hg hstraight

/-- Where no way leads around, the equations have one solution. -/
theorem Analysis.Solves.unique {φ ψ : EdgeId → A} (hφ : an.Solves g f φ) (hψ : an.Solves g f ψ)
    {e : EdgeId} {edge : Edge} (he : g.edges.get? e = some edge) : φ e = ψ e := by
  obtain ⟨n, k, hlead⟩ := Direction.exists_leads hg an.direction he
  clear he
  -- By induction on the place of the node that the edge leads from.
  induction hi : (an.direction.sequence g).idxOf n using Nat.strong_induction_on
    generalizing e n k with
  | _ i ih =>
    have hn := (an.direction.mem_order_of_leads hg hlead).1
    have hout := (an.direction.mem_outputs_iff hg.toIndexed).2 ⟨k, hlead⟩
    rw [hφ n hn e hout, hψ n hn e hout]
    refine congrArg (fun l => f n e (Fact.joinAll an.initial l)) (List.map_congr_left fun d hd => ?_)
    obtain ⟨m, hm⟩ := (an.direction.mem_inputs_iff hg.toIndexed).1 hd
    exact ih _ (hi ▸ (hstraight d m n hm).idxOf_lt (an.direction.sequence_nodup hg.toIndexed)) m n hm rfl

/-- Where no way leads around, propagation ends, whatever it begins with. -/
theorem Tracking.exists_run [DecidableEq A] (hnodup : seq.Nodup) (hseq : ∀ n ∈ g.order, n ∈ seq)
    (hfollows : ∀ n ∈ seq, an.FollowsAt g p f n) : ∃ bound w, Tracking an g f seq w ∧
      w.queue = [] ∧ ∀ B ≥ bound, Worklist.run an g p B (an.startFrom seq) = .ok w := by
  -- Facts may go up and down, so it is the queue that gets smaller.
  have hwf := InvImage.wf (fun w : Worklist A => (w.queue : Multiset NodeId))
    (hstraight.wellFounded hg).cutExpand
  obtain ⟨bound, w, hrun, hw, hq⟩ := Worklist.exists_run hwf
    (fun w n rest (h : Tracking an g f seq w) hq => by
      obtain ⟨v, hvisit, hv, htracking⟩ := h.exists_visit hg hseq hfollows hq
      exact ⟨v, hvisit, htracking, hv.cutExpand hq htracking.nodup⟩)
    (start an f hnodup hseq)
  exact ⟨bound, w, hw, hq, fun B hB => Worklist.run_mono hrun hB⟩

/-- What it ends with is the solution. -/
theorem Analysis.Solves.exists_run_holds [DecidableEq A] {φ : EdgeId → A} (hφ : an.Solves g f φ)
    (hnodup : seq.Nodup) (hseq : ∀ n ∈ g.order, n ∈ seq)
    (hfollows : ∀ n ∈ seq, an.FollowsAt g p f n) :
    ∃ bound w, (∀ B ≥ bound, Worklist.run an g p B (an.startFrom seq) = .ok w) ∧
      w.facts.Holds g φ := by
  obtain ⟨bound, w, hw, hq, hrun⟩ := Tracking.exists_run hg hstraight hnodup hseq hfollows
  obtain ⟨ψ, hψ, hsolves⟩ := hw.exists_holds hg hq
  exact ⟨bound, w, hrun, hψ.congr fun e edge he => hsolves.unique hg hstraight hφ he⟩

end Straight

/-! ### Values that variables are known to hold -/

namespace Inlining

/-- What solving finds is the least solution. -/
theorem least_of_solve {oracle : Oracle} {p : Program} {g : Graph} {E : NodeId → Effect}
    {N B : Nat} {m : FactMap Known} (hg : g.Wired) (hord : Direction.forward.Ordered g)
    (hE : ∀ n ∈ g.order, HasEffect oracle p g n (E n))
    (hN : ∀ n ∈ g.order, ∀ v value, E n = .put v value → v.index < N)
    (h : (analysis oracle).solve B g p = .ok m) :
    ∃ φ, m.Holds g φ ∧ (analysis oracle).Solves g (fun n _ => (E n).apply) φ ∧
      ∀ ψ, (analysis oracle).Solves g (fun n _ => (E n).apply) ψ →
        ∀ e edge, g.edges.get? e = some edge → φ e ≤ ψ e := by
  rw [(analysis oracle).toAnalysis.solve_eq_run hg.toIndexed] at h
  obtain ⟨w, hrun, h⟩ := Run.bind_eq_ok.1 h
  cases h
  obtain ⟨hw, hq⟩ :=
    (growing oracle hg hord hN).along_sequence.rising_of_run (analysis_follows hE) hrun
  exact hw.exists_holds hg (fun _ => Direction.mem_sequence.2) hq

/-- Distinct nodes are first visited as they come. -/
theorem propagate_eq_run_of_nodup (oracle : Oracle) (B : Nat) (g : Graph) (p : Program)
    {seed : List NodeId} (h : seed.Nodup) :
    (analysis oracle).propagate B g p { initial := {} } seed = (do
      let w ← Worklist.run (analysis oracle).toAnalysis g p B ((analysis oracle).startFrom seed)
      return (w.updates, w.facts)) := by
  have hqueue : (analysis oracle).direction.queue seed = seed := foldl_enqueue_nodup h
  have hrun := (analysis oracle).propagate_eq_run B g p seed
  rwa [hqueue] at hrun

/-- On the graph of a body, where propagating from the nodes in any sequence ends, the facts are
    above those that solving finds. They are the same, and propagating does end, if each node that
    is entered at all is entered from a node before it in the sequence, or if there are no loops
    in the body. -/
theorem propagate_eq_solve_of_timely {p : Program} {body : StmtId} {g : Graph}
    (hg : Graph.ofBody p body = .ok (.ok g)) (oracle : Oracle) {seed : List NodeId}
    (hseed : seed.Perm g.order) :
    (∀ B updates m', (analysis oracle).propagate B g p { initial := {} } seed = .ok (updates, m') →
      ∃ bound m, (∀ B ≥ bound, (analysis oracle).solve B g p = .ok m) ∧
        ∀ e edge, g.edges.get? e = some edge →
          ∃ a b, m.get e = some a ∧ m'.get e = some b ∧ Fact.Below a b) ∧
    ((∀ n ∈ g.order, g.inEdges.get n ≠ [] → ∃ e k, g.Joins e k n ∧ Precedes seed k n) ∨
        p.LoopFree body →
      ∀ B m, (analysis oracle).solve B g p = .ok m →
        ∃ bound m', (∀ B ≥ bound, ∃ updates,
            (analysis oracle).propagate B g p { initial := {} } seed = .ok (updates, m')) ∧
          ∀ e, m'.get e = m.get e) := by
  obtain ⟨hlinked, hlaid⟩ := Graph.ofBody_laidOut hg
  have hwired := hlinked.toWired
  have hord := hlaid.ordered hwired
  have hnodup : seed.Nodup := hseed.nodup_iff.2 hwired.order_nodup
  have hmem : ∀ n ∈ g.order, n ∈ seed := fun n hn => hseed.mem_iff.2 hn
  constructor
  · intro B updates m' h
    rw [propagate_eq_run_of_nodup oracle B g p hnodup] at h
    obtain ⟨w, hrun, h⟩ := Run.bind_eq_ok.1 h
    cases h
    obtain ⟨E, hE⟩ := exists_effects_of_run hrun hmem
    obtain ⟨N, hN⟩ := exists_index_bound E g.order
    obtain ⟨bound, m, hsolve⟩ := exists_solve_of_effects hwired hord fun n hn => ⟨E n, hE n hn⟩
    obtain ⟨φ, hφ, _, hleast⟩ := least_of_solve hwired hord hE hN (hsolve bound le_rfl)
    -- What the run ends with is a solution, and solving finds the least one.
    obtain ⟨hw, hq⟩ := Tracking.of_run hwired hnodup hmem
      (fun n hn => analysis_follows hE n (hseed.mem_iff.1 hn)) hrun
    obtain ⟨ψ, hψ, hsolves⟩ := hw.exists_holds hwired hq
    exact ⟨bound, m, hsolve, fun e edge he =>
      ⟨φ e, ψ e, hφ.get he, hψ.get he, hleast ψ hsolves e edge he⟩⟩
  · intro h B m hsolve
    obtain ⟨E, hE⟩ := exists_effects_of_solve hwired hsolve
    obtain ⟨N, hN⟩ := exists_index_bound E g.order
    obtain ⟨φ, hφ, hsolves, hleast⟩ := least_of_solve hwired hord hE hN hsolve
    have hfollows : ∀ n ∈ seed, (analysis oracle).FollowsAt g p (fun n _ => (E n).apply) n :=
      fun n hn => analysis_follows hE n (hseed.mem_iff.1 hn)
    have hend : ∃ bound w, (∀ B ≥ bound, Worklist.run (analysis oracle).toAnalysis g p B
        ((analysis oracle).startFrom seed) = .ok w) ∧ w.facts.Holds g φ := by
      rcases h with htimely | hfree
      · -- Facts grow toward the least solution in this sequence, too.
        have hf := (growing oracle hwired hord hN).along hnodup hmem htimely
        obtain ⟨bound, w, hrun, _, _, hw⟩ :=
          hf.exists_run_holds hwired hmem hfollows hsolves hleast
        exact ⟨bound, w, hrun, hw⟩
      · -- There is one solution only.
        have hstraight : Direction.forward.Straight g :=
          fun e k n hlead => hlaid.precedes_of_joins hwired hfree hlead
        exact hsolves.exists_run_holds hwired hstraight hnodup hmem hfollows
    obtain ⟨bound, w, hrun, hw⟩ := hend
    refine ⟨bound, w.facts, fun B hB => ⟨w.updates, ?_⟩, fun e => (hw e).trans (hφ e).symm⟩
    rw [propagate_eq_run_of_nodup oracle B g p hnodup, hrun B hB]
    rfl

/-- The end of a body may be visited before its loop. -/
theorem propagate_eq_solve_of_timely_loop : ∃ g, Graph.ofBody sampleLoop ⟨0⟩ = .ok (.ok g) ∧
    ∃ bound m, (∀ B ≥ bound, (analysis .declared).solve B g sampleLoop = .ok m) ∧
      ∃ bound m', (∀ B ≥ bound, ∃ updates, (analysis .declared).propagate B g sampleLoop
          { initial := {} } [⟨0⟩, ⟨1⟩, ⟨2⟩, ⟨5⟩, ⟨3⟩, ⟨4⟩] = .ok (updates, m')) ∧
        ∀ e, m'.get e = m.get e := by
  obtain ⟨g, hg, hperm, htimely⟩ : ∃ g, Graph.ofBody sampleLoop ⟨0⟩ = .ok (.ok g) ∧
      List.Perm [⟨0⟩, ⟨1⟩, ⟨2⟩, ⟨5⟩, ⟨3⟩, ⟨4⟩] g.order ∧
      ∀ n ∈ g.order, g.inEdges.get n ≠ [] → ∃ e k, g.Joins e k n ∧
        Precedes [⟨0⟩, ⟨1⟩, ⟨2⟩, ⟨5⟩, ⟨3⟩, ⟨4⟩] k n := by
    refine ⟨_, rfl, by decide, List.forall_mem_cons.2 ⟨fun h => absurd rfl h, ?_⟩⟩
    exact List.forall_mem_cons.2 ⟨fun _ => ⟨⟨0⟩, ⟨0⟩, ⟨_, rfl⟩, [⟨0⟩], _, rfl, by decide⟩,
      List.forall_mem_cons.2 ⟨fun _ => ⟨⟨1⟩, ⟨1⟩, ⟨_, rfl⟩, [⟨0⟩, ⟨1⟩], _, rfl, by decide⟩,
      List.forall_mem_cons.2 ⟨fun _ => ⟨⟨2⟩, ⟨2⟩, ⟨_, rfl⟩, [⟨0⟩, ⟨1⟩, ⟨2⟩, ⟨5⟩], _, rfl, by decide⟩,
      List.forall_mem_cons.2 ⟨fun _ =>
        ⟨⟨3⟩, ⟨3⟩, ⟨_, rfl⟩, [⟨0⟩, ⟨1⟩, ⟨2⟩, ⟨5⟩, ⟨3⟩], _, rfl, by decide⟩,
      List.forall_mem_cons.2 ⟨fun _ => ⟨⟨5⟩, ⟨2⟩, ⟨_, rfl⟩, [⟨0⟩, ⟨1⟩, ⟨2⟩], _, rfl, by decide⟩,
      List.forall_mem_nil _⟩⟩⟩⟩⟩
  obtain ⟨hlinked, hlaid⟩ := Graph.ofBody_laidOut hg
  obtain ⟨bound, m, hsolve⟩ := exists_solve_of_effects hlinked.toWired
    (hlaid.ordered hlinked.toWired) (exists_hasEffect_sampleLoop hg)
  exact ⟨g, hg, bound, m, hsolve,
    (propagate_eq_solve_of_timely hg .declared hperm).2 (.inl htimely) bound m
      (hsolve bound le_rfl)⟩

/-- A value that is known before a loop, and in it. -/
def sampleAhead : Program where
  vars := ⟨#[{ name := "v", type := .int, kind := .ofMethod },
    { name := "c", type := .int, kind := .ofMethod }]⟩
  exprs := ⟨#[.int 1, .var ⟨1⟩]⟩
  stmts := ⟨#[.declare ⟨0⟩ (some ⟨0⟩), .block [], .loop ⟨1⟩ ⟨1⟩, .block [⟨0⟩, ⟨2⟩]]⟩

/-- The facts on the edges of its body: whether the value is known in the loop, and after it. -/
def factsAhead (inLoop : Bool) : FactMap Known where
  initial := {}
  facts := ⟨#[({} : Known), ({} : Known), variableFact true, variableFact true,
    variableFact inLoop, variableFact inLoop, variableFact inLoop, variableFact inLoop]⟩

/-- Propagating from the loop first ends with facts that are not those of solving: the value that
    is known before the loop is no longer known in it. -/
theorem propagate_ne_solve : ∃ g, Graph.ofBody sampleAhead ⟨3⟩ = .ok (.ok g) ∧
    List.Perm [⟨4⟩, ⟨5⟩, ⟨6⟩, ⟨0⟩, ⟨1⟩, ⟨2⟩, ⟨3⟩, ⟨7⟩] g.order ∧
    (analysis .declared).solve 20 g sampleAhead = .ok (factsAhead true) ∧
    (analysis .declared).propagate 20 g sampleAhead { initial := {} }
      [⟨4⟩, ⟨5⟩, ⟨6⟩, ⟨0⟩, ⟨1⟩, ⟨2⟩, ⟨3⟩, ⟨7⟩] = .ok (12, factsAhead false) ∧
    (factsAhead true).get ⟨4⟩ ≠ (factsAhead false).get ⟨4⟩ :=
  ⟨_, rfl, by decide, by decide +kernel, by decide +kernel, by decide⟩

end Inlining

end Dataflow
