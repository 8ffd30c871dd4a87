import Dataflow.Proofs.ExactSolving
import Dataflow.Proofs.Settled

/-!
# Known values along paths

What inlining knows on an edge, told by the paths to it. A path starts at a node that no edge
enters, follows edges and ends by taking the edge in question; along it each node does to the
fact what its operation does, from the empty fact on. Every operation distributes over joins, so
solving leaves on an edge no more and no less than the join over all the paths to it, of which
there are infinitely many where there are loops.

* `Graph.Trail`: the paths to an edge;
* `Gathered`: on the way to the solution each fact is a join of facts of paths, kept by every
  visit (`Gathered.visit`);
* `value_through`: a value is known at the end of a path if the last node that disturbs what is
  known put it;
* `solve_eq_join_over_paths`: the statement above.
-/

namespace Dataflow

/-- A path through the nodes of a list, in order. It starts at a node that no edge enters and ends
    by taking the edge `e`. -/
inductive Graph.Trail (g : Graph) : List NodeId → EdgeId → Prop
  | start {n : NodeId} {e : EdgeId} : n ∈ g.order → g.inEdges.get n = [] → e ∈ g.outEdges.get n →
    Trail g [n] e
  | step {ns : List NodeId} {d e : EdgeId} {n : NodeId} : Trail g ns d → d ∈ g.inEdges.get n →
    e ∈ g.outEdges.get n → Trail g (ns ++ [n]) e

theorem Graph.Trail.mem_order {g : Graph} (hg : g.Wired) {ns : List NodeId} {e : EdgeId}
    (h : g.Trail ns e) : ∀ n ∈ ns, n ∈ g.order := by
  induction h with
  | start hn => exact fun m hm => List.mem_singleton.1 hm ▸ hn
  | step _ hd _ ih =>
    intro m hm
    rcases List.mem_append.1 hm with hm | hm
    · exact ih m hm
    · obtain ⟨_, hd⟩ := (hg.mem_inEdges _ _).1 hd
      exact List.mem_singleton.1 hm ▸ hg.target_mem hd

namespace Inlining

variable {oracle : Oracle} {p : Program} {g : Graph} {E : NodeId → Effect} {ns : List NodeId}
  {n : NodeId} {v : VarId} {x : ExprId} {e : EdgeId}

/-- What is known at the end of a path, from nothing at its start. -/
def pathFact (oracle : Oracle) (p : Program) (g : Graph) (ns : List NodeId) : Run Known :=
  ns.foldlM (fun k n => do transfer oracle p (← g.kind n) k) {}

/-- What is known at the end of a path, by the effects of its nodes. -/
def through (E : NodeId → Effect) (ns : List NodeId) : Known := ns.foldl (fun k n => (E n).apply k) {}

theorem through_concat : through E (ns ++ [n]) = (E n).apply (through E ns) := by
  rw [through, List.foldl_append]
  rfl

theorem pathFact_eq (h : ∀ n ∈ ns, HasEffect oracle p g n (E n)) :
    pathFact oracle p g ns = .ok (through E ns) := by
  rw [pathFact, through]
  generalize ({} : Known) = k
  induction ns generalizing k with
  | nil => rfl
  | cons n ns ih =>
    rw [List.forall_mem_cons] at h
    obtain ⟨⟨node, hnode, heffect⟩, hns⟩ := h
    rw [List.foldlM_cons, Graph.kind, Arena.get_eq_ok_iff.2 hnode]
    change (transfer oracle p node.kind k >>= _) = _
    rw [transfer_eq, heffect]
    exact ih hns ((E n).apply k)

/-! ### Joins of facts of paths -/

/-- A fact is a join of some of the facts that `P` holds of. -/
inductive JoinOf (P : Known → Prop) : Known → Prop
  | one {k : Known} : P k → JoinOf P k
  | join {a b : Known} : JoinOf P a → JoinOf P b → JoinOf P (a.join b)

namespace JoinOf

variable {P Q : Known → Prop} {k : Known}

/-- An operation distributes over joins. -/
theorem apply (f : Effect) (h : JoinOf P k) (hPQ : ∀ k, P k → Q (f.apply k)) :
    JoinOf Q (f.apply k) := by
  induction h with
  | one hk => exact .one (hPQ _ hk)
  | join _ _ iha ihb =>
    rw [Effect.apply_join]
    exact .join iha ihb

theorem joinAll {l : List Known} (hne : l ≠ []) (h : ∀ k ∈ l, JoinOf P k) :
    JoinOf P (Fact.joinAll {} l) := by
  cases l with
  | nil => exact absurd rfl hne
  | cons a rest =>
    clear hne
    rw [Fact.joinAll]
    induction rest generalizing a with
    | nil => exact h a List.mem_cons_self
    | cons b rest ih =>
      simp only [List.forall_mem_cons] at h
      exact ih _ (List.forall_mem_cons.2 ⟨.join h.1 h.2.1, h.2.2⟩)

theorem mono (h : JoinOf P k) (hPQ : ∀ k, P k → Q k) : JoinOf Q k := by
  induction h with
  | one hk => exact .one (hPQ _ hk)
  | join _ _ iha ihb => exact .join iha ihb

theorem exists_of (h : JoinOf P k) : ∃ a, P a := by
  induction h with
  | one hk => exact ⟨_, hk⟩
  | join _ _ ih _ => exact ih

theorem le {c : Known} (h : JoinOf P k) (hc : ∀ a, P a → a ≤ c) : k ≤ c := by
  induction h with
  | one hk => exact hc _ hk
  | join _ _ iha ihb => exact sup_le iha ihb

/-- What all facts know, their join knows. -/
theorem value (h : JoinOf P k) (hP : ∀ a, P a → a.value v = some x) : k.value v = some x := by
  induction h with
  | one hk => exact hP _ hk
  | join _ _ iha ihb => rw [Known.value_join, iha, ihb, if_pos rfl]

end JoinOf

/-- What a larger fact knows, a smaller one knows. -/
theorem Known.value_of_le {a b : Known} (h : a ≤ b) (hb : b.value v = some x) :
    a.value v = some x := by
  rw [Known.le_iff] at h
  rw [← h, Known.value_join] at hb
  split at hb
  · exact hb
  · cases hb

/-! ### On the way to the solution -/

/-- Every fact is a join of facts of paths to its edge. -/
def Gathered (g : Graph) (E : NodeId → Effect) (w : Worklist Known) : Prop :=
  ∀ e k, w.facts.get e = some k → JoinOf (fun a => ∃ ns, g.Trail ns e ∧ through E ns = a) k

/-- Every visit of a node that facts have arrived at keeps facts joins of facts of paths. -/
theorem Gathered.visit {w u : Worklist Known} {rest : List NodeId}
    (h : Gathered g E w) (hinitial : w.facts.initial = {}) (hn : n ∈ g.order)
    (hin : w.Arrived (analysis oracle).toAnalysis g n)
    (hu : Worklist.Visited (analysis oracle).toAnalysis g (fun n _ => (E n).apply) n rest w u) :
    Gathered g E u := by
  intro e k hk
  rw [hu.facts e] at hk
  split at hk
  · next he =>
    cases hk
    change JoinOf _ ((E n).apply (w.facts.joined (g.inEdges.get n)))
    rw [FactMap.joined_eq_joinAll, hinitial]
    rcases hin with hnil | ⟨d, hd, hsome⟩
    · -- No edge enters the node, so that a path starts there.
      have hnil' : g.inEdges.get n = [] := hnil
      rw [hnil']
      exact .one ⟨[n], .start hn hnil' he, rfl⟩
    · obtain ⟨a, ha⟩ := Option.isSome_iff_exists.1 hsome
      -- The facts that meet there are joins over the paths to the edges that enter the node.
      have hjoin : JoinOf (fun a => ∃ d ∈ g.inEdges.get n, ∃ ns, g.Trail ns d ∧ through E ns = a)
          (Fact.joinAll {} ((g.inEdges.get n).filterMap w.facts.get)) := by
        refine JoinOf.joinAll (List.ne_nil_of_mem (List.mem_filterMap.2 ⟨d, hd, ha⟩)) fun b hb => ?_
        obtain ⟨c, hc, hb⟩ := List.mem_filterMap.1 hb
        exact (h c b hb).mono fun a ha => ⟨c, hc, ha⟩
      refine hjoin.apply (E n) ?_
      rintro _ ⟨c, hc, ns, htrail, rfl⟩
      exact ⟨ns ++ [n], htrail.step hc he, through_concat⟩
  · exact h e k hk

/-! ### Values at the end of a path -/

/-- A node writes a variable, or may do so: it is a write, an update in place or a call with side
    effects. -/
def Disturbs (oracle : Oracle) (p : Program) (g : Graph) (n : NodeId) : Prop :=
  ∃ node, g.nodes.get? n = some node ∧ match node.kind with
    | .write .. | .readWrite _ => True
    | .call call => oracle.callHasEffects p call = .ok true
    | _ => False

/-- A node writes a value that may stand for the variable where it is read later. -/
def Puts (oracle : Oracle) (p : Program) (g : Graph) (v : VarId) (x : ExprId) (n : NodeId) : Prop :=
  ∃ node, g.nodes.get? n = some node ∧ node.kind = .write v x ∧
    oracle.isTrackable p v = .ok true ∧ isInlinable oracle p v x = .ok true

/-- The last node of a path that disturbs what is known writes the value `x` of `v`, which may
    stand for the variable where it is read later. -/
def LastPuts (oracle : Oracle) (p : Program) (g : Graph) (v : VarId) (x : ExprId)
    (ns : List NodeId) : Prop :=
  ∃ before n after, ns = before ++ n :: after ∧ Puts oracle p g v x n ∧
    ∀ m ∈ after, ¬Disturbs oracle p g m

theorem Puts.disturbs (h : Puts oracle p g v x n) : Disturbs oracle p g n := by
  obtain ⟨node, hnode, hkind, _⟩ := h
  exact ⟨node, hnode, by rw [hkind]; trivial⟩

theorem Puts.isTrackable (h : Puts oracle p g v x n) : oracle.isTrackable p v = .ok true := by
  obtain ⟨_, _, _, h, _⟩ := h
  exact h

theorem LastPuts.isTrackable (h : LastPuts oracle p g v x ns) : oracle.isTrackable p v = .ok true := by
  obtain ⟨_, _, _, _, hn, _⟩ := h
  exact hn.isTrackable

theorem lastPuts_concat : LastPuts oracle p g v x (ns ++ [n]) ↔
    Puts oracle p g v x n ∨ LastPuts oracle p g v x ns ∧ ¬Disturbs oracle p g n := by
  constructor
  · rintro ⟨before, m, after, heq, hm, hafter⟩
    rcases List.eq_nil_or_concat after with rfl | ⟨after, k, rfl⟩
    · obtain ⟨_, hnm⟩ := List.append_inj' heq rfl
      cases hnm
      exact .inl hm
    · rw [List.concat_eq_append] at heq hafter
      rw [← List.cons_append, ← List.append_assoc] at heq
      obtain ⟨rfl, hnk⟩ := List.append_inj' heq rfl
      cases hnk
      rw [List.forall_mem_append] at hafter
      exact .inr ⟨⟨before, m, after, rfl, hm, hafter.1⟩, hafter.2 n (List.mem_singleton_self n)⟩
  · rintro (hn | ⟨⟨before, m, after, rfl, hm, hafter⟩, hn⟩)
    · exact ⟨ns, n, [], rfl, hn, fun m hm => absurd hm List.not_mem_nil⟩
    · refine ⟨before, m, after ++ [n], by simp, hm, ?_⟩
      rw [List.forall_mem_append]
      exact ⟨hafter, fun k hk => List.mem_singleton.1 hk ▸ hn⟩

/-- What a node does, in the words of the two notions above. -/
theorem HasEffect.cases {f : Effect} (h : HasEffect oracle p g n f) :
    (f = .keep ∧ ¬Disturbs oracle p g n) ∨
      (Disturbs oracle p g n ∧ ((f = .forget ∧ ∀ v x, ¬Puts oracle p g v x n) ∨
        (∃ u value, f = .put u value ∧ ∀ v x, Puts oracle p g v x n ↔ u = v ∧ value = some x) ∨
        ∃ u, f = .spare u ∧ oracle.isTrackable p u = .ok false ∧ ∀ v x, ¬Puts oracle p g v x n)) := by
  obtain ⟨node, hnode, heffect⟩ := h
  have hput : ∀ v x, Puts oracle p g v x n ↔ node.kind = .write v x ∧
      oracle.isTrackable p v = .ok true ∧ isInlinable oracle p v x = .ok true := fun v x =>
    ⟨fun ⟨node', hnode', h⟩ => by
      rw [hnode] at hnode'
      cases hnode'
      exact h, fun h => ⟨node, hnode, h⟩⟩
  have hdis : Disturbs oracle p g n ↔ match node.kind with
      | .write .. | .readWrite _ => True
      | .call call => oracle.callHasEffects p call = .ok true
      | _ => False :=
    ⟨fun ⟨node', hnode', h⟩ => by
      rw [hnode] at hnode'
      cases hnode'
      exact h, fun h => ⟨node, hnode, h⟩⟩
  simp only [hput, hdis]
  cases hkind : node.kind with
  | write u y =>
    rw [hkind] at heffect
    obtain ⟨tracked, htracked, heffect⟩ := Run.bind_eq_ok.1 heffect
    right
    refine ⟨trivial, .inr ?_⟩
    cases tracked with
    | false =>
      cases heffect
      refine .inr ⟨u, rfl, htracked, ?_⟩
      rintro v x ⟨hwrite, ht, _⟩
      cases hwrite
      rw [htracked] at ht
      cases ht
    | true =>
      obtain ⟨inlinable, hinlinable, heffect⟩ := Run.bind_eq_ok.1 heffect
      left
      cases inlinable with
      | true =>
        cases heffect
        refine ⟨u, some y, rfl, fun v x => ⟨?_, ?_⟩⟩
        · rintro ⟨hwrite, _⟩
          cases hwrite
          exact ⟨rfl, rfl⟩
        · rintro ⟨rfl, hx⟩
          cases hx
          exact ⟨rfl, htracked, hinlinable⟩
      | false =>
        cases heffect
        refine ⟨u, none, rfl, fun v x => ⟨?_, fun h => (by cases h.2)⟩⟩
        rintro ⟨hwrite, _, hi⟩
        cases hwrite
        rw [hinlinable] at hi
        cases hi
  | call call =>
    rw [hkind] at heffect
    obtain ⟨effects, heffects, heffect⟩ := Run.bind_eq_ok.1 heffect
    cases effects with
    | true =>
      cases heffect
      exact .inr ⟨heffects, .inl ⟨rfl, fun v x h => by cases h.1⟩⟩
    | false =>
      cases heffect
      exact .inl ⟨rfl, fun h => by cases heffects.symm.trans h⟩
  | readWrite u =>
    rw [hkind] at heffect
    cases heffect
    exact .inr ⟨trivial, .inl ⟨rfl, fun v x h => by cases h.1⟩⟩
  | _ =>
    rw [hkind] at heffect
    cases heffect
    exact .inl ⟨rfl, id⟩

/-- A value is known at the end of a path if the last node that disturbs what is known put it. -/
theorem value_through (hE : ∀ n ∈ ns, HasEffect oracle p g n (E n)) :
    (through E ns).value v = some x ↔ LastPuts oracle p g v x ns := by
  induction ns using List.reverseRecOn with
  | nil =>
    refine ⟨fun h => (by cases h), ?_⟩
    rintro ⟨before, n, after, heq, _⟩
    simp at heq
  | append_singleton ns n ih =>
    rw [List.forall_mem_append] at hE
    replace ih := ih hE.1
    have hn := hE.2 n (List.mem_singleton_self n)
    rw [through_concat, Effect.value_apply, lastPuts_concat]
    obtain ⟨hf, hdis⟩ | ⟨hdis, hf⟩ := hn.cases
    · -- The node changes nothing.
      rw [hf, Effect.after, ih]
      exact ⟨fun h => .inr ⟨h, hdis⟩, fun h => (h.resolve_left fun h => hdis h.disturbs).1⟩
    · simp only [hdis, not_true_eq_false, and_false, or_false]
      obtain ⟨hf, hput⟩ | ⟨u, value, hf, hput⟩ | ⟨u, hf, huntracked, hput⟩ := hf
      · rw [hf, Effect.after]
        exact ⟨fun h => (by cases h), fun h => absurd h (hput v x)⟩
      · rw [hf, Effect.after, hput]
        split
        · next huv => exact ⟨fun h => ⟨huv, h⟩, fun h => h.2⟩
        · next huv => exact ⟨fun h => (by cases h), fun h => absurd h.1 huv⟩
      · -- A variable that is not tracked is never known, so there is no value to spare.
        rw [hf, Effect.after]
        refine ⟨fun h => ?_, fun h => absurd h (hput v x)⟩
        split at h
        · next huv =>
          have := (ih.1 h).isTrackable
          rw [← huv, huntracked] at this
          cases this
        · cases h

/-! ### The solution -/

/-- Finitely many nodes put values of finitely many variables. -/
theorem exists_index_bound (E : NodeId → Effect) (ns : List NodeId) :
    ∃ N, ∀ n ∈ ns, ∀ v value, E n = .put v value → v.index < N := by
  induction ns with
  | nil => exact ⟨0, fun n hn => absurd hn List.not_mem_nil⟩
  | cons n ns ih =>
    obtain ⟨N, hN⟩ := ih
    obtain ⟨M, hM⟩ : ∃ M, ∀ v value, E n = .put v value → v.index < M := by
      cases hE : E n with
      | put u y =>
        refine ⟨u.index + 1, fun v value h => ?_⟩
        cases h
        exact Nat.lt_succ_self _
      | _ => exact ⟨0, fun v value h => by cases h⟩
    refine ⟨max N M, List.forall_mem_cons.2 ⟨fun v value h => ?_, fun m hm v value h => ?_⟩⟩
    · exact lt_of_lt_of_le (hM v value h) (le_max_right _ _)
    · exact lt_of_lt_of_le (hN m hm v value h) (le_max_left _ _)

/-- Effects of the nodes, each taken at once. -/
theorem exists_effects (h : ∀ n ∈ g.order, ∃ f, HasEffect oracle p g n f) :
    ∃ E : NodeId → Effect, ∀ n ∈ g.order, HasEffect oracle p g n (E n) := by
  have heffect : ∀ n, ∃ f, n ∈ g.order → HasEffect oracle p g n f := fun n => by
    by_cases hn : n ∈ g.order
    · obtain ⟨f, hf⟩ := h n hn
      exact ⟨f, fun _ => hf⟩
    · exact ⟨.keep, fun h => absurd h hn⟩
  exact Classical.skolem.1 heffect

/-- Interpreting a node asks for its effect. -/
theorem exists_hasEffect_of_interpret {m m' : FactMap Known}
    (h : (analysis oracle).interpret n g p m = .ok m') : ∃ f, HasEffect oracle p g n f := by
  obtain ⟨out, hout, _⟩ := Run.bind_eq_ok.1 h
  obtain ⟨kind, hkind, hout⟩ := Run.bind_eq_ok.1 hout
  obtain ⟨node, hnode, hkind⟩ := Run.bind_eq_ok.1 hkind
  cases hkind
  obtain ⟨k, hk, _⟩ := Run.bind_eq_ok.1 hout
  rw [transfer_eq] at hk
  obtain ⟨f, hf, _⟩ := Run.bind_eq_ok.1 hk
  exact ⟨f, node, Arena.get_eq_ok_iff.1 hnode, hf⟩

/-- A run asks for the effect of every node of its queue. -/
theorem exists_effects_of_run {B : Nat} {w w' : Worklist Known}
    (h : Worklist.run (analysis oracle).toAnalysis g p B w = .ok w')
    (hqueue : ∀ n ∈ g.order, n ∈ w.queue) :
    ∃ E : NodeId → Effect, ∀ n ∈ g.order, HasEffect oracle p g n (E n) := by
  refine exists_effects fun n hn => ?_
  obtain ⟨m, m', hint⟩ := Worklist.exists_interpret_of_run h (hqueue n hn)
  exact exists_hasEffect_of_interpret hint

/-- Solving asks for the effect of every node. -/
theorem exists_effects_of_solve {B : Nat} {m : FactMap Known} (hg : g.Wired)
    (h : (analysis oracle).solve B g p = .ok m) :
    ∃ E : NodeId → Effect, ∀ n ∈ g.order, HasEffect oracle p g n (E n) := by
  rw [(analysis oracle).toAnalysis.solve_eq_run hg.toIndexed] at h
  obtain ⟨w, hrun, _⟩ := Run.bind_eq_ok.1 h
  exact exists_effects_of_run hrun fun n hn => hn

/-- The facts on the edges are above those of all paths. -/
theorem Settled.through_le {F : FactMap Known} (hF : Settled g F E) (hg : g.Wired)
    (h : g.Trail ns e) : ∃ k, F.get e = some k ∧ through E ns ≤ k := by
  induction h with
  | start hn hnil he =>
    refine ⟨_, hF.fact _ hn _ he, (E _).apply_monotone (le_of_eq ?_)⟩
    rw [FactMap.joinIncoming, hnil]
    exact hF.initial.symm
  | @step ns d e n _ hd he ih =>
    obtain ⟨k, hk, hle⟩ := ih
    obtain ⟨_, hjoins⟩ := (hg.mem_outEdges n e).1 he
    refine ⟨_, hF.fact n (hg.source_mem hjoins) e he, ?_⟩
    rw [through_concat]
    refine (E n).apply_monotone (hle.trans ?_)
    rw [FactMap.joinIncoming, FactMap.joined_eq_joinAll]
    exact Fact.le_joinAll (fun _ _ => rfl) (List.mem_filterMap.2 ⟨d, hd, hk⟩)

/-- Solving settles facts that are joins of facts of paths. -/
theorem gathered_of_solve {B N : Nat} {m : FactMap Known} (hg : g.Wired)
    (hord : Direction.forward.Ordered g) (hE : ∀ n ∈ g.order, HasEffect oracle p g n (E n))
    (hN : ∀ n ∈ g.order, ∀ v value, E n = .put v value → v.index < N)
    (h : (analysis oracle).solve B g p = .ok m) : Settled g m E ∧ ∀ e k, m.get e = some k →
      JoinOf (fun a => ∃ ns, g.Trail ns e ∧ through E ns = a) k := by
  have hf := growing oracle hg hord hN
  rw [(analysis oracle).toAnalysis.solve_eq_run hg.toIndexed] at h
  obtain ⟨w, hrun, h⟩ := Run.bind_eq_ok.1 h
  cases h
  obtain ⟨hreaches, hq⟩ := Worklist.run_reaches hrun
  have hinv : ∀ w, Worklist.Reaches (analysis oracle).toAnalysis g p ((analysis oracle).start g) w →
      Rising (analysis oracle).toAnalysis g (fun n _ => (E n).apply) (Known.within N) w ∧
        Gathered g E w := by
    intro w hw
    induction hw with
    | start => exact ⟨Rising.start _ g _ _, fun e k hk => by simp at hk⟩
    | @visit u v n rest _ hqueue hvisit ih =>
      obtain ⟨hu, hgathered⟩ := ih
      have hn : n ∈ g.order := hu.queued n (hqueue ▸ List.mem_cons_self)
      obtain ⟨v', hvisit', hv⟩ :=
        Worklist.visit_follows hg.toIndexed (analysis_follows hE) hn rest hu.changed
      cases hvisit.symm.trans hvisit'
      exact ⟨hu.visit hf hqueue hv, hgathered.visit hu.initial hn (hu.arrived hf hqueue) hv⟩
  obtain ⟨hw, hgathered⟩ := hinv w hreaches
  refine ⟨⟨hw.initial, hw.changed, fun n hn e he => ?_⟩, hgathered⟩
  exact hw.settled n hn (by rw [hq]; exact List.not_mem_nil) e he

/-- Solving ends on a graph in order, if every node has an effect. -/
theorem exists_solve_of_effects (hg : g.Wired) (hord : Direction.forward.Ordered g)
    (heffect : ∀ n ∈ g.order, ∃ f, HasEffect oracle p g n f) :
    ∃ bound m, ∀ B ≥ bound, (analysis oracle).solve B g p = .ok m := by
  obtain ⟨E, hE⟩ := exists_effects heffect
  obtain ⟨N, hN⟩ := exists_index_bound E g.order
  obtain ⟨bound, F, _, hsolve⟩ := exists_solve_settled hg hord hE hN
  exact ⟨bound, F, hsolve⟩

/-- On a graph of a body, solving ends if the effect of every node can be told. What it leaves on an
    edge is then the join of what is known at the ends of all paths to the edge; so it knows the
    value `x` of `v` there if there is such a path and the last node on each of them that disturbs
    what is known puts that value. -/
theorem solve_eq_join_over_paths {p : Program} {body : StmtId} {g : Graph}
    (hg : Graph.ofBody p body = .ok (.ok g)) (oracle : Oracle) :
    ((∀ n ∈ g.order, ∃ f, HasEffect oracle p g n f) →
      ∃ bound m, ∀ B ≥ bound, (analysis oracle).solve B g p = .ok m) ∧
    ∀ B m, (analysis oracle).solve B g p = .ok m → ∀ e edge, g.edges.get? e = some edge →
      (∀ ns, g.Trail ns e → ∃ a, pathFact oracle p g ns = .ok a) ∧
      ∃ k, m.get e = some k ∧
        IsLUB {a | ∃ ns, g.Trail ns e ∧ pathFact oracle p g ns = .ok a} k ∧
        ∀ v x, k.value v = some x ↔
          (∃ ns, g.Trail ns e) ∧ ∀ ns, g.Trail ns e → LastPuts oracle p g v x ns := by
  obtain ⟨hlinked, hlaid⟩ := Graph.ofBody_laidOut hg
  have hwired := hlinked.toWired
  have hord := hlaid.ordered hwired
  constructor
  · exact exists_solve_of_effects hwired hord
  · intro B m hsolve e edge hedge
    obtain ⟨E, hE⟩ := exists_effects_of_solve hwired hsolve
    obtain ⟨N, hN⟩ := exists_index_bound E g.order
    obtain ⟨hsettled, hgathered⟩ := gathered_of_solve hwired hord hE hN hsolve
    have hpath : ∀ ns, g.Trail ns e → pathFact oracle p g ns = .ok (through E ns) := fun ns hns =>
      pathFact_eq fun n hn => hE n (hns.mem_order hwired n hn)
    obtain ⟨s, hs, t, _, hjoins⟩ := hwired.ends e edge hedge
    have hk := hsettled.fact s hs e (hwired.outEdges_of_joins hjoins)
    have hjoin := hgathered e _ hk
    have hle : ∀ ns, g.Trail ns e → through E ns ≤ leaving g m E s := fun ns hns => by
      obtain ⟨k, hk', hle⟩ := hsettled.through_le hwired hns
      cases hk.symm.trans hk'
      exact hle
    refine ⟨fun ns hns => ⟨_, hpath ns hns⟩, leaving g m E s, hk, ⟨?_, ?_⟩, fun v x => ⟨?_, ?_⟩⟩
    · rintro a ⟨ns, hns, ha⟩
      cases (hpath ns hns).symm.trans ha
      exact hle ns hns
    · intro c hc
      refine hjoin.le ?_
      rintro _ ⟨ns, hns, rfl⟩
      exact hc ⟨ns, hns, hpath ns hns⟩
    · intro hvalue
      obtain ⟨_, ns, hns, _⟩ := hjoin.exists_of
      refine ⟨⟨ns, hns⟩, fun ns hns => ?_⟩
      exact (value_through fun n hn => hE n (hns.mem_order hwired n hn)).1
        (Known.value_of_le (hle ns hns) hvalue)
    · rintro ⟨_, hlast⟩
      refine hjoin.value ?_
      rintro _ ⟨ns, hns, rfl⟩
      exact (value_through fun n hn => hE n (hns.mem_order hwired n hn)).2 (hlast ns hns)

theorem exists_hasEffect_sampleLoop {g : Graph} (hg : Graph.ofBody sampleLoop ⟨0⟩ = .ok (.ok g)) :
    ∀ n ∈ g.order, ∃ f, HasEffect .declared sampleLoop g n f := by
  cases hg
  intro n hn
  replace hn : n ∈ [(⟨0⟩ : NodeId), ⟨1⟩, ⟨2⟩, ⟨3⟩, ⟨4⟩, ⟨5⟩] := hn
  simp only [List.mem_cons, List.not_mem_nil, or_false] at hn
  rcases hn with rfl | rfl | rfl | rfl | rfl | rfl <;> exact ⟨_, _, rfl, rfl⟩

/-- A loop: there are infinitely many paths to each edge behind its condition. -/
theorem solve_eq_join_over_paths_loop : ∃ g, Graph.ofBody sampleLoop ⟨0⟩ = .ok (.ok g) ∧
    ∃ bound m, ∀ B ≥ bound, (analysis .declared).solve B g sampleLoop = .ok m ∧
      ∀ e edge, g.edges.get? e = some edge → ∃ k, m.get e = some k ∧
        IsLUB {a | ∃ ns, g.Trail ns e ∧ pathFact .declared sampleLoop g ns = .ok a} k := by
  obtain ⟨g, hg⟩ : ∃ g, Graph.ofBody sampleLoop ⟨0⟩ = .ok (.ok g) := ⟨_, rfl⟩
  obtain ⟨hends, hjoin⟩ := solve_eq_join_over_paths hg .declared
  obtain ⟨bound, m, hsolve⟩ := hends (exists_hasEffect_sampleLoop hg)
  refine ⟨g, hg, bound, m, fun B hB => ⟨hsolve B hB, fun e edge hedge => ?_⟩⟩
  obtain ⟨_, k, hk, hlub, _⟩ := hjoin B m (hsolve B hB) e edge hedge
  exact ⟨k, hk, hlub⟩

end Inlining

end Dataflow
