import Dataflow.Analysis.Combined
import Dataflow.Proofs.LeastSolution

/-!
# Two analyses side by side

A visit of two analyses as one lets each of them interpret the node on its own side of the facts
around it, and merges what they record as changed. Each sees the same facts arrive as it would
alone, so that the pair puts on each edge on the far side of a node what the two put there
(`Analysis.FollowsAt.pair`). What changes on the first side is recorded first.

So the first side of a run for both is a chain of visits for the first one, though not the one that
the solver would make for it alone: nodes are also visited because of changes on the second side. What
such visits keep (`Worklist.Stable`) holds of the first side where the run ends
(`Worklist.IsFirst.of_run`).
-/

namespace Dataflow

variable {A B C : Type}

/-- A choice that respects joins can be made before or after them. -/
theorem Fact.map_joinAll [Fact A] [Fact C] (pick : A → C)
    (hpick : ∀ a b, pick (join a b) = join (pick a) (pick b)) (initial : A) (l : List A) :
    joinAll (pick initial) (l.map pick) = pick (joinAll initial l) := by
  cases l with
  | nil => rfl
  | cons a rest =>
    rw [List.map_cons, joinAll, joinAll]
    induction rest generalizing a with
    | nil => rfl
    | cons b rest ih => rw [List.map_cons, List.foldl_cons, List.foldl_cons, ← hpick, ih]

namespace FactMap

section Put

variable [DecidableEq A]

theorem put_cons_some {m : FactMap A} {e : EdgeId} {edges : List EdgeId} {out : EdgeId → Option A}
    {a : A} (he : out e = some a) : m.put (e :: edges) out = (m.set e a).put edges out := by
  rw [put, List.foldl_cons, he, put]

theorem put_cons_none {m : FactMap A} {e : EdgeId} {edges : List EdgeId} {out : EdgeId → Option A}
    (he : out e = none) : m.put (e :: edges) out = m.put edges out := by
  rw [put, List.foldl_cons, he, put]

theorem get_put_or (m : FactMap A) (edges : List EdgeId) (out : EdgeId → Option A) (d : EdgeId) :
    (m.put edges out).get d = if d ∈ edges then (out d).or (m.get d) else m.get d := by
  induction edges generalizing m with
  | nil => rfl
  | cons e edges ih =>
    cases he : out e with
    | none =>
      rw [put_cons_none he, ih]
      by_cases hd : d = e
      · simp [hd, he]
      · simp [hd]
    | some a =>
      rw [put_cons_some he, ih, get_set]
      by_cases hd : d = e
      · simp [hd, he]
      · simp [hd, Ne.symm hd]

theorem initial_put_or (m : FactMap A) (edges : List EdgeId) (out : EdgeId → Option A) :
    (m.put edges out).initial = m.initial := by
  induction edges generalizing m with
  | nil => rfl
  | cons e edges ih =>
    cases he : out e with
    | none => rw [put_cons_none he, ih]
    | some a => rw [put_cons_some he, ih, initial_set]

theorem put_append (m : FactMap A) (edges later : List EdgeId) (out : EdgeId → Option A) :
    m.put (edges ++ later) out = (m.put edges out).put later out :=
  List.foldl_append

/-- Edges that hold their fact already can be left out. -/
theorem put_filter {m : FactMap A} {edges : List EdgeId} {h : EdgeId → A} {q : EdgeId → Bool}
    (hq : ∀ e ∈ edges, q e = false → m.get e = some (h e)) :
    m.put (edges.filter q) (fun e => some (h e)) = m.put edges fun e => some (h e) := by
  induction edges generalizing m with
  | nil => rfl
  | cons e edges ih =>
    rw [List.forall_mem_cons] at hq
    by_cases he : q e = true
    · rw [List.filter_cons_of_pos he]
      refine ih fun d hd hqd => ?_
      rw [get_set]
      split
      · next heq => rw [heq]
      · exact hq.2 d hd hqd
    · have hset : m.set e (h e) = m := if_pos (hq.1 (Bool.eq_false_iff.2 he))
      rw [List.filter_cons_of_neg he, ih hq.2, put_cons_some (a := h e) rfl, hset]

end Put

/-! ### One side of the facts -/

section Side

variable [DecidableEq C] (m : FactMap A) (g : Graph) (n : NodeId) (pick : A → C)

theorem get_side (e : EdgeId) : (m.side g n pick).get e =
    if e ∈ g.inEdges.get n ++ g.outEdges.get n then (m.get e).map pick else none := by
  have hempty : ({ initial := pick m.initial } : FactMap C).get e = none := SideTable.get_empty e
  refine (get_put_or _ _ _ e).trans ?_
  rw [hempty, Option.or_none]

theorem initial_side : (m.side g n pick).initial = pick m.initial :=
  initial_put_or _ _ _

theorem changed_side : (m.side g n pick).changed = [] := rfl

/-- What arrives on one side is that side of what arrives. -/
theorem joined_side [Fact A] [Fact C] (hpick : ∀ a b, pick (Fact.join a b) =
    Fact.join (pick a) (pick b)) {edges : List EdgeId}
    (hedges : ∀ e ∈ edges, e ∈ g.inEdges.get n ++ g.outEdges.get n) :
    (m.side g n pick).joined edges = pick (m.joined edges) := by
  have hfacts : edges.filterMap (m.side g n pick).get = (edges.filterMap m.get).map pick := by
    rw [List.map_filterMap]
    refine List.filterMap_congr fun e he => ?_
    rw [get_side, if_pos (hedges e he)]
  rw [joined_eq_joinAll, joined_eq_joinAll, hfacts, initial_side, Fact.map_joinAll pick hpick]

end Side

/-! ### Both sides -/

section Merge

variable [DecidableEq A] [DecidableEq B]

/-- Where both sides have a fact on every edge that one of them changed, merging puts both facts
    there. -/
theorem merge_eq_put (m : FactMap (A × B)) {first : FactMap A} {second : FactMap B}
    (due : EdgeId → A × B) (h : ∀ e ∈ first.changed ++ second.changed,
      first.get e = some (due e).1 ∧ second.get e = some (due e).2) :
    m.merge first second =
      m.put (first.changed ++ second.changed) fun e => some (due e) := by
  rw [merge, put]
  refine List.foldl_ext _ _ m fun m e he => ?_
  rw [(h e he).1, (h e he).2]
  rfl

/-- Facts that the two sides put on the same edges, merged, are the pairs put on these edges in
    some sequence. -/
theorem merge_put (m : FactMap (A × B)) {g : Graph} {n : NodeId} {edges edges' : List EdgeId}
    (hnodup : edges.Nodup) (hperm : edges'.Perm edges)
    (haround : ∀ e ∈ edges, e ∈ g.inEdges.get n ++ g.outEdges.get n) (due : EdgeId → A × B) :
    ∃ both : List EdgeId, both.Perm edges ∧
      m.merge ((m.side g n Prod.fst).put edges fun e => some (due e).1)
        ((m.side g n Prod.snd).put edges' fun e => some (due e).2) =
        m.put both fun e => some (due e) := by
  have hnodup' := hperm.nodup_iff.2 hnodup
  let changed := edges.filter fun e => (m.side g n Prod.fst).get e ≠ some (due e).1
  let changed' := edges'.filter fun e => (m.side g n Prod.snd).get e ≠ some (due e).2
  have hchanged : ((m.side g n Prod.fst).put edges fun e => some (due e).1).changed = changed := by
    rw [changed_put _ hnodup, changed_side, List.nil_append]
  have hchanged' :
      ((m.side g n Prod.snd).put edges' fun e => some (due e).2).changed = changed' := by
    rw [changed_put _ hnodup', changed_side, List.nil_append]
  have hmem : ∀ e ∈ changed ++ changed', e ∈ edges := by
    intro e he
    rcases List.mem_append.1 he with he | he
    · exact (List.mem_filter.1 he).1
    · exact hperm.mem_iff.1 (List.mem_filter.1 he).1
  -- The edges changed on the first side come first, then all others as on the second.
  refine ⟨changed ++ edges'.filter (· ∉ changed), ?perm, ?eq⟩
  case perm =>
    refine (List.perm_ext_iff_of_nodup ?_ hnodup).2 fun e => ?_
    · refine List.nodup_append.2 ⟨hnodup.filter _, hnodup'.filter _, ?_⟩
      rintro e he _ he' rfl
      simp [he] at he'
    · rw [List.mem_append]
      constructor
      · rintro (he | he)
        · exact (List.mem_filter.1 he).1
        · exact hperm.mem_iff.1 (List.mem_filter.1 he).1
      · intro he
        by_cases hc : e ∈ changed
        · exact .inl hc
        · exact .inr (List.mem_filter.2 ⟨hperm.mem_iff.2 he, decide_eq_true hc⟩)
  case eq =>
    rw [merge_eq_put m due (fun e he => ?both), hchanged, hchanged', put_append, put_append]
    case both =>
      rw [hchanged, hchanged'] at he
      have he := hmem e he
      rw [get_put, get_put, if_pos he, if_pos (hperm.mem_iff.2 he)]
      exact ⟨rfl, rfl⟩
    -- Once the first side's changes are made, an edge left out by either list holds its pair.
    have hfirst : ∀ e ∈ changed, (m.put changed fun e => some (due e)).get e = some (due e) :=
      fun e he => by rw [get_put, if_pos he]
    have hboth : ∀ e ∈ edges', (m.side g n Prod.snd).get e = some (due e).2 →
        (m.put changed fun e => some (due e)).get e = some (due e) := by
      intro e he hsecond
      by_cases hc : e ∈ changed
      · exact hfirst e hc
      · have he := hperm.mem_iff.1 he
        rw [get_put, if_neg hc]
        have hkeep : (m.side g n Prod.fst).get e = some (due e).1 := by
          by_contra hne
          exact hc (List.mem_filter.2 ⟨he, decide_eq_true hne⟩)
        rw [get_side, if_pos (haround e he), Option.map_eq_some_iff] at hkeep hsecond
        obtain ⟨a, ha, ha₁⟩ := hkeep
        obtain ⟨b, hb, hb₂⟩ := hsecond
        rw [ha] at hb ⊢
        cases hb
        exact congrArg some (Prod.ext ha₁ hb₂)
    refine (put_filter fun e he hq => hboth e he ?_).trans (put_filter fun e _ hq => ?_).symm
    · simpa using hq
    · exact hfirst e (by simpa using hq)

end Merge

end FactMap

theorem Direction.mem_around_of_inputs (d : Direction) {g : Graph} {n : NodeId} {e : EdgeId}
    (he : e ∈ d.inputs g n) : e ∈ g.inEdges.get n ++ g.outEdges.get n := by
  cases d with
  | forward => exact List.mem_append_left _ he
  | backward => exact List.mem_append_right _ he

theorem Direction.mem_around_of_outputs (d : Direction) {g : Graph} {n : NodeId} {e : EdgeId}
    (he : e ∈ d.outputs g n) : e ∈ g.inEdges.get n ++ g.outEdges.get n := by
  cases d with
  | forward => exact List.mem_append_right _ he
  | backward => exact List.mem_append_left _ he

namespace Analysis

variable [DecidableEq A] [DecidableEq B] [Fact A] [Fact B] {first : Analysis A}
  {second : Analysis B} {g : Graph} {p : Program} {f : NodeId → EdgeId → A → A}
  {h : NodeId → EdgeId → B → B} {n : NodeId}

/-- Two analyses that follow functions follow both, side by side. -/
theorem FollowsAt.pair (hg : g.Wired) (hdir : second.direction = first.direction)
    (hf : first.FollowsAt g p f n) (hh : second.FollowsAt g p h n) :
    (first.pair second).FollowsAt g p (fun n e a => (f n e a.1, h n e a.2)) n := by
  intro m
  let inputs := first.direction.inputs g n
  obtain ⟨edges, hedges, hfirst⟩ := hf (m.side g n Prod.fst)
  obtain ⟨edges', hedges', hsecond⟩ := hh (m.side g n Prod.snd)
  rw [hdir] at hedges' hsecond
  -- Each side sees its part of what arrives.
  have hin : ∀ e ∈ inputs, e ∈ g.inEdges.get n ++ g.outEdges.get n :=
    fun e => first.direction.mem_around_of_inputs
  rw [m.joined_side g n Prod.fst (fun _ _ => rfl) hin] at hfirst
  rw [m.joined_side g n Prod.snd (fun _ _ => rfl) hin] at hsecond
  obtain ⟨both, hperm, hmerge⟩ := m.merge_put
    (hedges.nodup_iff.2 (first.direction.outputs_nodup hg.toIndexed)) (hedges'.trans hedges.symm)
    (fun e he => first.direction.mem_around_of_outputs (hedges.mem_iff.1 he))
    fun e => (f n e (m.joined inputs).1, h n e (m.joined inputs).2)
  refine ⟨both, hperm.trans hedges, ?_⟩
  change (do
    let a ← first.interpret n g p (m.side g n Prod.fst)
    let b ← second.interpret n g p (m.side g n Prod.snd)
    return m.merge a b) = _
  rw [hfirst, hsecond]
  exact congrArg Except.ok hmerge

theorem Follows.pair (hg : g.Wired) (hdir : second.direction = first.direction)
    (hf : first.Follows g p f) (hh : second.Follows g p h) :
    (first.pair second).Follows g p fun n e a => (f n e a.1, h n e a.2) :=
  fun n hn => FollowsAt.pair hg hdir (hf n hn) (hh n hn)

end Analysis

/-! ### The first side of a run -/

/-- The facts `G` are the first components of the facts `m`. -/
structure FactMap.IsFirst (G : FactMap A) (m : FactMap (A × B)) : Prop where
  initial : G.initial = m.initial.1
  get : ∀ e, G.get e = (m.get e).map Prod.fst

theorem FactMap.IsFirst.joined [Fact A] [Fact B] {G : FactMap A} {m : FactMap (A × B)}
    (h : G.IsFirst m) (edges : List EdgeId) : G.joined edges = (m.joined edges).1 := by
  have hfacts : edges.filterMap G.get = (edges.filterMap m.get).map Prod.fst := by
    rw [List.map_filterMap]
    exact List.filterMap_congr fun e _ => h.get e
  rw [joined_eq_joinAll, joined_eq_joinAll, hfacts, h.initial]
  exact Fact.map_joinAll Prod.fst (fun _ _ => rfl) _ _

/-- The state `x` of the solver, for the first of two analyses, has the first components of the facts
    of the state `w`, for both, and the same nodes to visit. -/
structure Worklist.IsFirst (x : Worklist A) (w : Worklist (A × B)) : Prop where
  facts : x.facts.IsFirst w.facts
  queue : x.queue = w.queue
  unchanged : x.facts.changed = [] ∧ w.facts.changed = []

namespace Worklist

/-- Visits of an analysis keep this, whatever other nodes join the queue. -/
def Stable [Fact A] (an : Analysis A) (g : Graph) (f : NodeId → EdgeId → A → A)
    (I : Worklist A → Prop) : Prop :=
  ∀ x n rest later y, I x → x.queue = n :: rest → n ∈ g.order → (∀ k ∈ later, k ∈ g.order) →
    Visited an g f n (rest ++ later) { x with queue := n :: (rest ++ later) } y →
    y.queue = rest ++ later → I y

variable [DecidableEq A] [DecidableEq B] [Fact A] [Fact B] {first : Analysis A}
  {second : Analysis B} {g : Graph} {p : Program} {f : NodeId → EdgeId → A → A}
  {h : NodeId → EdgeId → B → B} {w v : Worklist (A × B)} {x : Worklist A} {n : NodeId}
  {rest : List NodeId} (hg : g.Wired) (hdir : second.direction = first.direction)
include hg hdir

/-- A visit for two analyses is, on the first side, a visit for the first one. Other nodes may have
    joined the queue, those that a fact of the second one has changed for. -/
theorem IsFirst.exists_visited (hx : x.IsFirst w) (hf : first.FollowsAt g p f n)
    (hh : second.FollowsAt g p h n) (hrest : ∀ k ∈ rest, k ∈ g.order) :
    ∃ v later y, w.visit (first.pair second) g p n rest = .ok v ∧ y.IsFirst v ∧
      y.queue = rest ++ later ∧ (∀ k ∈ later, k ∈ g.order) ∧
      Visited first g f n (rest ++ later) { x with queue := n :: (rest ++ later) } y := by
  obtain ⟨v, hvisit, hv⟩ :=
    visit_followsAt hg.toIndexed (Analysis.FollowsAt.pair hg hdir hf hh) rest hx.unchanged.2
  obtain ⟨later, hlater⟩ := hv.behind
  obtain ⟨y, _, hy⟩ := visit_followsAt (w := { x with queue := n :: (rest ++ later) }) hg.toIndexed hf
    (rest ++ later) hx.unchanged.1
  have hjoined := hx.facts.joined (first.direction.inputs g n)
  have hqueue : y.queue = rest ++ later := by
    refine hy.same fun e he hne k hlead => ?_
    rw [← hlater, hv.mem_queue]
    refine .inr ⟨e, he, fun hsame => hne ?_, hlead⟩
    change x.facts.get e = some (f n e (x.facts.joined _))
    rw [hx.facts.get, hsame, hjoined]
    rfl
  refine ⟨v, later, y, hvisit, ⟨⟨?_, fun e => ?_⟩, hqueue.trans hlater.symm, hy.changed, hv.changed⟩,
    hqueue, fun k hk => ?_, hy⟩
  · rw [hy.initial, hv.initial]
    exact hx.facts.initial
  · have hfirst := hy.facts e
    change y.facts.get e = if e ∈ first.direction.outputs g n then
      some (f n e (x.facts.joined (first.direction.inputs g n))) else x.facts.get e at hfirst
    have hboth := hv.facts e
    change v.facts.get e = if e ∈ first.direction.outputs g n then
      some (f n e (w.facts.joined (first.direction.inputs g n)).1, h n e _) else _ at hboth
    rw [hfirst, hboth, hjoined, hx.facts.get]
    split <;> rfl
  · rcases (hv.mem_queue k).1 (hlater ▸ List.mem_append_right _ hk) with hk | ⟨e, _, _, hlead⟩
    · exact hrest k hk
    · exact (Direction.mem_order_of_leads _ hg hlead).2

/-- What is stable on the first side holds of it where a run for both ends. -/
theorem IsFirst.of_run {I : Worklist A → Prop} (hI : Stable first g f I) (hf : first.Follows g p f)
    (hh : second.Follows g p h) (hx : x.IsFirst w) (hqueued : ∀ n ∈ x.queue, n ∈ g.order)
    (hstart : I x) {bound : Nat} (hrun : run (first.pair second) g p bound w = .ok v) :
    ∃ y, y.IsFirst v ∧ y.queue = [] ∧ I y := by
  obtain ⟨hreaches, hnil⟩ := run_reaches hrun
  let Inv (w : Worklist (A × B)) : Prop :=
    ∃ y : Worklist A, y.IsFirst w ∧ (∀ n ∈ y.queue, n ∈ g.order) ∧ I y
  have hkeep : ∀ w n rest, Inv w → w.queue = n :: rest →
      ∃ v, w.visit (first.pair second) g p n rest = .ok v ∧ Inv v := by
    rintro w n rest ⟨x, hx, hqueued, hIx⟩ hq
    rw [← hx.queue] at hq
    rw [hq, List.forall_mem_cons] at hqueued
    obtain ⟨v, later, y, hvisit, hy, hqueue, hlater, hvisited⟩ :=
      hx.exists_visited hg hdir (hf n hqueued.1) (hh n hqueued.1) hqueued.2
    refine ⟨v, hvisit, y, hy, ?_, hI x n rest later y hIx hq hqueued.1 hlater hvisited hqueue⟩
    rw [hqueue]
    exact List.forall_mem_append.2 ⟨hqueued.2, hlater⟩
  obtain ⟨y, hy, _, hIy⟩ := hreaches.invariant hkeep ⟨x, hx, hqueued, hstart⟩
  exact ⟨y, hy, hy.queue.trans hnil, hIy⟩

/-- It also holds where a node was interpreted for both, and the facts were settled again. -/
theorem IsFirst.of_interpret {I : Worklist A → Prop} (hI : Stable first g f I)
    (hf : first.Follows g p f) (hh : second.Follows g p h) (hforward : first.direction = .forward)
    {m m' m'' : FactMap (A × B)} (hx : x.IsFirst { facts := m, queue := [n] }) (hn : n ∈ g.order)
    (hstart : I x) (hinterpret : (first.pair second).interpret n g p m = .ok m') {bound : Nat}
    (hsettle : (first.pair second).settle bound g p m' = .ok m'') :
    ∃ v y, v.facts = m'' ∧ Worklist.IsFirst y v ∧ y.queue = [] ∧ I y := by
  obtain ⟨v, later, y, hvisit, hy, hqueue, hlater, hvisited⟩ :=
    hx.exists_visited hg hdir (hf n hn) (hh n hn) (List.forall_mem_nil _)
  obtain ⟨m₁, hinterpret', hsettle'⟩ := Analysis.exists_interpret
    (show (first.pair second).direction = .forward from hforward) hvisit
  cases hinterpret.symm.trans hinterpret'
  rw [hsettle'] at hsettle
  obtain ⟨u, hrun, hu⟩ := Run.bind_eq_ok.1 hsettle
  cases hu
  have hIy := hI x n [] later y hstart hx.queue hn hlater hvisited hqueue
  have hqueued : ∀ k ∈ y.queue, k ∈ g.order := by
    rw [hqueue]
    exact hlater
  obtain ⟨z, hz, hnil, hIz⟩ := IsFirst.of_run hg hdir hI hf hh (w := { v with updates := 0 })
    ⟨hy.facts, hy.queue, hy.unchanged⟩ hqueued hIy hrun
  exact ⟨u, z, rfl, hz, hnil, hIz⟩

end Worklist

/-! ### The first side of a solution -/

section Solution

variable [Fact A] [SemilatticeSup A] {an : Analysis A} {g : Graph} {f : NodeId → EdgeId → A → A}
  {S : Set A} {seq later : List NodeId} {w : Worklist A}

/-- Facts that grow do so whatever other nodes join the queue. -/
theorem RisingFrom.requeue (h : RisingFrom an g f S seq w) (hlater : ∀ k ∈ later, k ∈ seq) :
    RisingFrom an g f S seq { w with queue := w.queue ++ later } where
  initial := h.initial
  changed := h.changed
  mem_set := h.mem_set
  on_edge := h.on_edge
  queued n hn := (List.mem_append.1 hn).elim (h.queued n) (hlater n)
  round := by
    obtain ⟨past, ahead, behind, hseq, hqueue, hpast⟩ := h.round
    refine ⟨past, ahead, behind ++ later, hseq, ?_, hpast⟩
    rw [hqueue, List.append_assoc]
  grounded := h.grounded
  le_due := h.le_due
  settled n hn hnot := h.settled n hn fun hmem => hnot (List.mem_append_left _ hmem)
  le_solution := h.le_solution

theorem Growing.stable (hf : Growing an g f S) : Worklist.Stable an g f (Rising an g f S) := by
  intro x n rest later y hx hq _ hlater hv _
  refine Rising.visit hf (w := { x with queue := n :: (rest ++ later) }) ?_ rfl hv
  rw [← List.cons_append, ← hq]
  exact hx.requeue fun k hk => Direction.mem_sequence.2 (hlater k hk)

/-- Where two analyses are solved as one, the facts of the first one have grown as they do alone. -/
theorem Growing.exists_first_of_solve [DecidableEq A] [DecidableEq B] [Fact B] {second : Analysis B}
    {p : Program} {h : NodeId → EdgeId → B → B} (hf : Growing an g f S)
    (hdir : second.direction = an.direction) (hfollows : an.Follows g p f)
    (hh : second.Follows g p h) {bound : Nat} {m : FactMap (A × B)}
    (hsolve : (an.pair second).solve bound g p = .ok m) :
    ∃ v y, v.facts = m ∧ Worklist.IsFirst y v ∧ y.queue = [] ∧ Rising an g f S y := by
  rw [Analysis.solve_eq_run _ hf.wired.toIndexed] at hsolve
  obtain ⟨v, hrun, hv⟩ := Run.bind_eq_ok.1 hsolve
  cases hv
  have hstart : (an.start g).IsFirst ((an.pair second).start g) :=
    ⟨⟨rfl, fun _ => rfl⟩, rfl, rfl, rfl⟩
  obtain ⟨y, hy, hnil, hrising⟩ := hstart.of_run hf.wired hdir hf.stable hfollows hh
    (fun n hn => Direction.mem_sequence.1 hn) (Rising.start an g f S) hrun
  exact ⟨v, y, rfl, hy, hnil, hrising⟩

end Solution

end Dataflow
