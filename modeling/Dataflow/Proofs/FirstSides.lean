import Dataflow.Proofs.Pairing
import Dataflow.Proofs.WaveGrafts

/-!
# Inlining beside another analysis

Where inlining is solved as the first of two analyses, nodes are visited again because of the second
one. Three things that such visits keep, whatever nodes they are of:

* `level_stable`: facts that are settled for what the nodes do are not changed;
* `Ripples.stable`: where one write puts another value than the facts are settled for, nothing is
  changed until the write is visited, and then a wave runs from it;
* `Filling.stable`: facts run along inserted nodes first.

In the end the facts are those that they were, or those that the wave leads to.
-/

namespace Dataflow.Inlining

variable {B : Type} [DecidableEq B] [Fact B] {second : Analysis B} {g g' : Graph} {p q : Program}
  {F F' G G' : FactMap Known} {E A : NodeId → Effect} {n m k : NodeId} {v : VarId}
  {a b : Option ExprId} {w w' : Worklist Known} {rest : List NodeId} {oracle : Oracle}

/-! ### The same facts -/

/-- The facts `G` are the facts `F`, on the edges of the graph. -/
structure Level (g : Graph) (F G : FactMap Known) : Prop where
  initial : G.initial = F.initial
  get : ∀ e m n, g.Joins e m n → G.get e = F.get e

theorem Level.joinIncoming_eq (h : Level g F G) (hg : g.Wired) (n : NodeId) :
    G.joinIncoming g n = F.joinIncoming g n := by
  refine FactMap.joined_congr h.initial fun e he => ?_
  obtain ⟨m, hm⟩ := (hg.mem_inEdges n e).1 he
  exact h.get e m n hm

theorem Level.settled (h : Level g F G) (hg : g.Wired) (hF : Settled g F E) (hG : G.changed = []) :
    Settled g G E where
  initial := h.initial.trans hF.initial
  changed := hG
  fact n hn e he := by
    obtain ⟨m, hm⟩ := (hg.mem_outEdges n e).1 he
    rw [h.get e n m hm, hF.fact n hn e he, h.joinIncoming_eq hg]

/-- A visit of a node that does what the facts are settled for changes nothing. -/
theorem Level.visit (h : Level g F w.facts) (hg : g.Wired) (hF : Settled g F E) (hA : A n = E n)
    (hv : Worklist.Visited (analysis oracle).toAnalysis g (fun n _ => (A n).apply) n rest w w') :
    Level g F w'.facts := by
  refine ⟨hv.initial.trans h.initial, fun e m m' he => ?_⟩
  refine (hv.facts e).trans ?_
  split
  · next hout =>
    obtain ⟨l, hl⟩ := (hg.mem_outEdges n e).1 hout
    rw [hF.get_of_joins hg hl, leaving, ← hA, ← h.joinIncoming_eq hg]
    rfl
  · exact h.get e m m' he

theorem level_stable (hg : g.Wired) (hF : Settled g F E) :
    Worklist.Stable (analysis oracle).toAnalysis g (fun n _ => (E n).apply)
      fun x => Level g F x.facts :=
  fun x n rest later _ hx _ _ _ hv _ =>
    Level.visit (w := { x with queue := n :: (rest ++ later) }) hx hg hF rfl hv

/-! ### A wave that may run -/

/-- The facts are those that the write `k` still has to change, or a wave runs from `k`. If it `must`
    run, then it does, or `k` is to be visited. -/
def Ripples (g : Graph) (F : FactMap Known) (A : NodeId → Effect) (k : NodeId) (v : VarId)
    (b : Option ExprId) (must : Prop) (x : Worklist Known) : Prop :=
  Level g F x.facts ∧ (must → k ∈ x.queue) ∨
    Driven g F A k v b x.facts ∧ ∀ m ∈ g.order, m ∉ x.queue → ∀ e ∈ g.outEdges.get m,
      x.facts.get e = some (leaving g x.facts A m)

/-- Where nothing was visited yet. -/
theorem Level.driven (h : Level g F G) (hg : g.Wired) (hF : Settled g F E) (hE : Rises g E A k v a b)
    (hord : Direction.forward.Ordered g) (hab : a ≠ b) : Driven g F A k v b G := by
  have hvalue : ∀ e m n, g.Joins e m n → ∀ u, valueOn G u e = valueOn F u e := fun e m n he u => by
    rw [valueOn, valueOn, h.get e m n he]
  have hstart := Driven.start hF hg hE hord hab
  constructor
  case toDiffers =>
    refine ⟨h.initial.trans hF.initial, fun e m n he u => ?_, fun e m n he u _ => hvalue e m n he u⟩
    rw [h.get e m n he]
  case remains => exact fun e m n he y hy _ => hvalue e m n he v ▸ hy
  case upheld => exact fun y U _ _ hold e m n he heU => (hvalue e m n he v).trans (hold e m n he heU)
  case swept =>
    exact fun hb U hU e m n he hval => hstart.swept hb U hU e m n he (hvalue e m n he v ▸ hval)

theorem Ripples.stable {must : Prop} (hg : g.Wired) (hord : Direction.forward.Ordered g)
    (hF : Settled g F E) (hE : Turns p g E A k v a b) :
    Worklist.Stable (analysis oracle).toAnalysis g (fun n _ => (A n).apply)
      (Ripples g F A k v b must) := by
  intro x n rest later y hx hq hn _ hv hqueue
  have hdrive (h : Driven g F A k v b x.facts) : Driven g F A k v b y.facts :=
    h.visit (w := { x with queue := n :: (rest ++ later) }) hF hg hE.toRises hv
  -- What is settled before the visit is settled after it.
  have hsettled (hbefore : ∀ m ∈ g.order, m ∉ n :: (rest ++ later) → ∀ e ∈ g.outEdges.get m,
      x.facts.get e = some (leaving g x.facts A m)) : ∀ m ∈ g.order, m ∉ y.queue →
      ∀ e ∈ g.outEdges.get m, y.facts.get e = some (leaving g y.facts A m) :=
    hv.settled hg.toIndexed rfl hbefore
  rcases hx with ⟨hlevel, hmust⟩ | ⟨hdriven, hoff⟩
  · by_cases hnk : n = k
    · -- The wave starts.
      subst hnk
      refine .inr ⟨hdrive (hlevel.driven hg hF hE.toRises hord hE.ne),
        hsettled fun m hm hnot e he => ?_⟩
      obtain ⟨l, hl⟩ := (hg.mem_outEdges m e).1 he
      have hmn : m ≠ n := fun hmn => hnot (hmn ▸ List.mem_cons_self)
      rw [hlevel.get e m l hl, hF.get_of_joins hg hl, leaving, leaving, hE.same m hmn,
        hlevel.joinIncoming_eq hg]
    · refine .inl ⟨hlevel.visit (w := { x with queue := n :: (rest ++ later) }) hg hF (hE.same n hnk)
        hv, fun hm => ?_⟩
      have hmem := hmust hm
      rw [hq] at hmem
      rw [hqueue]
      exact List.mem_append_left _ ((List.mem_cons.1 hmem).resolve_left (Ne.symm hnk))
  · refine .inr ⟨hdrive hdriven, hsettled fun m hm hnot => hoff m hm ?_⟩
    rw [hq]
    exact fun hmem => hnot (List.cons_subset_cons _ (List.subset_append_left _ _) hmem)

/-- When nothing is left to visit, no wave has run or it is over. -/
theorem Ripples.ends {must : Prop} {x : Worklist Known} (h : Ripples g F A k v b must x)
    (hq : x.queue = []) (hx : x.facts.changed = []) :
    Level g F x.facts ∧ ¬must ∨ Driven g F A k v b x.facts ∧ Settled g x.facts A := by
  refine h.imp (fun ⟨hlevel, hmust⟩ => ⟨hlevel, fun hm => ?_⟩) fun ⟨hdriven, hoff⟩ => ⟨hdriven, ?_⟩
  · have := hmust hm
    rw [hq] at this
    exact List.not_mem_nil this
  · refine ⟨hdriven.initial, hx, fun m hm e he => hoff m hm ?_ e he⟩
    rw [hq]
    exact List.not_mem_nil

/-! ### Along inserted nodes -/

/-- The first nodes of a row were visited and the others come next, or the row is behind and `I`
    holds. -/
def Filling (g : Graph) (F : FactMap Known) (n : NodeId) (row : List Node) (I : Worklist Known → Prop)
    (x : Worklist Known) : Prop :=
  (∃ i < row.length, ∃ later, Filled g F n row i x.facts ∧
    x.queue = (g.upcoming row.length).drop i ++ later) ∨ I x

section Filling

variable {row : List Node} {I : Worklist Known → Prop} (hg : g.Linked) (hs : g.Spliced n row g')
  (hF : Settled g F E) (hn : n ∈ g.order) (hkeep : E n = .keep)
include hg hs hF hn hkeep

theorem Filling.stable (hA : ∀ m ∈ g.upcoming row.length, A m = .keep)
    (hI : Worklist.Stable (analysis oracle).toAnalysis g' (fun n _ => (A n).apply) I)
    (hend : ∀ x, Filled g F n row row.length x.facts → I x) :
    Worklist.Stable (analysis oracle).toAnalysis g' (fun n _ => (A n).apply)
      (Filling g F n row I) := by
  rintro x l rest later y (⟨i, hi, behind, hfilled, hx⟩ | hx) hq hl hlater hv hqueue
  · rw [drop_upcoming hi, List.cons_append, hq] at hx
    obtain ⟨rfl, rfl⟩ := List.cons.inj hx
    have hmem : (⟨g.nodes.size + i⟩ : NodeId) ∈ g.upcoming row.length :=
      Graph.mem_upcoming.2 ⟨by simp, by simp; omega⟩
    have hnext : Filled g F n row (i + 1) y.facts := by
      refine (Filled.visit hF hg hn hkeep hs ?_ hi (hA _ hmem) hv).1
      exact hfilled
    by_cases hlast : i + 1 < row.length
    · refine .inl ⟨i + 1, hlast, behind ++ later, hnext, ?_⟩
      rw [hqueue, List.append_assoc]
    · have hlength : i + 1 = row.length := by omega
      exact .inr (hend y (hlength ▸ hnext))
  · exact .inr (hI x l rest later y hx hq hl hlater hv hqueue)

/-- Where the facts of both analyses were solved again from the row, the row is behind. -/
theorem Filling.of_propagate {h : NodeId → EdgeId → B → B}
    (hdir : second.direction = (analysis oracle).direction)
    (hfollows : ∀ m ∈ g'.order, HasEffect oracle q g' m (A m)) (hh : second.Follows g' q h)
    (hA : ∀ m ∈ g.upcoming row.length, A m = .keep)
    (hI : Worklist.Stable (analysis oracle).toAnalysis g' (fun n _ => (A n).apply) I)
    (hend : ∀ x, Filled g F n row row.length x.facts → I x) (hrow : row ≠ [])
    {M M' : FactMap (Known × B)} (hM : F.IsFirst M) {bound count : Nat}
    (hpropagate : ((analysis oracle).toAnalysis.pair second).propagate bound g' q M
      (g.upcoming row.length) = .ok (count, M')) :
    ∃ v y, v.facts = M' ∧ Worklist.IsFirst y v ∧ y.queue = [] ∧ I y := by
  rw [Analysis.propagate_eq, foldl_enqueue_nodup (show (((analysis oracle).toAnalysis.pair
    second).direction.arrange (g.upcoming row.length)).Nodup from Graph.upcoming_nodup _)] at hpropagate
  obtain ⟨v, hrun, hv⟩ := Run.bind_eq_ok.1 hpropagate
  cases hv
  have hx : Worklist.IsFirst { facts := F, queue := g.upcoming row.length }
      { facts := M.settled, queue := g.upcoming row.length } :=
    ⟨⟨hM.initial, hM.get⟩, rfl, hF.changed, rfl⟩
  have hqueued : ∀ m ∈ g.upcoming row.length, m ∈ g'.order := by
    intro m hm
    rw [hs.order]
    exact mem_flatMap_inPlaceOf.2 (.inl ⟨hn, hm⟩)
  have hstart : Filling g F n row I { facts := F, queue := g.upcoming row.length } :=
    .inl ⟨0, List.length_pos_iff.2 hrow, [], ⟨rfl, hF.changed, fun _ _ => rfl,
      fun j hj => absurd hj (Nat.not_lt_zero j)⟩, (List.append_nil _).symm⟩
  obtain ⟨y, hy, hnil, hfilling⟩ := hx.of_run hs.linked.toWired hdir
    (Filling.stable hg hs hF hn hkeep hA hI hend) (analysis_follows hfollows) hh hqueued hstart hrun
  refine ⟨v, y, rfl, hy, hnil, hfilling.resolve_left ?_⟩
  rintro ⟨i, hi, later, _, hqueue⟩
  rw [hnil, drop_upcoming hi] at hqueue
  cases hqueue

end Filling

end Dataflow.Inlining
