import Dataflow.Proofs.Paths
import Mathlib.Algebra.BigOperators.Group.Finset.Piecewise
import Mathlib.Algebra.Order.BigOperators.Group.Finset

/-!
# How often facts change

Where facts only grow, the fact on an edge changes once when it is first put there, and then at
most as often as facts can grow. So the solver's work is bounded by the number of edges and the
height of the facts, and a bound on its visits can be given in advance.

* `FactMap.levels`: how far the facts on all edges have come;
* `Worklist.levels_visit`: a visit takes them as many levels up as it changes facts;
* `GrowingFrom.updates_le`, `GrowingFrom.exists_run_of_rank`: the bounds, for any analysis;
* `solve_updates_le`: the facts of inlining. A variable that is unknown on an edge stays so.
-/

namespace Dataflow

variable {A : Type}

/-! ### Levels -/

namespace FactMap

/-- How far the fact on an edge has come: nowhere where there is none. -/
def level (rank : A → Nat) (m : FactMap A) (e : EdgeId) : Nat :=
  (m.get e).elim 0 (rank · + 1)

/-- How far the facts on the first `N` edges have come. -/
def levels (rank : A → Nat) (N : Nat) (m : FactMap A) : Nat :=
  ∑ i ∈ Finset.range N, m.level rank ⟨i⟩

variable {rank : A → Nat} {N H : Nat} {m m' : FactMap A}

theorem level_of_get {e : EdgeId} {a : A} (h : m.get e = some a) : m.level rank e = rank a + 1 := by
  rw [level, h]
  rfl

theorem level_of_none {e : EdgeId} (h : m.get e = none) : m.level rank e = 0 := by
  rw [level, h]
  rfl

theorem levels_le (h : ∀ e a, m.get e = some a → rank a ≤ H) : m.levels rank N ≤ N * (H + 1) := by
  have hlevel : ∀ i ∈ Finset.range N, m.level rank ⟨i⟩ ≤ H + 1 := by
    intro i _
    cases ha : m.get ⟨i⟩ with
    | none => exact (level_of_none ha).trans_le (Nat.zero_le _)
    | some a => exact (level_of_get ha).trans_le (Nat.succ_le_succ (h _ a ha))
  refine (Finset.sum_le_sum hlevel).trans (le_of_eq ?_)
  rw [Finset.sum_const, Finset.card_range, smul_eq_mul]

/-- Where facts are raised, as many levels are gained as there are edges whose facts change. -/
theorem levels_add_le [PartialOrder A] {S : Set A} (hrank : StrictMonoOn rank S)
    (hm : ∀ e a, m.get e = some a → a ∈ S) (hm' : ∀ e a, m'.get e = some a → a ∈ S)
    (hraise : m.Raises m') {edges : List EdgeId} (hnodup : edges.Nodup)
    (hedges : ∀ e ∈ edges, e.index < N ∧ m.get e ≠ m'.get e) :
    m.levels rank N + edges.length ≤ m'.levels rank N := by
  have hlevel : ∀ e : EdgeId, m.level rank e + (if e ∈ edges then 1 else 0) ≤ m'.level rank e := by
    intro e
    have hne : e ∈ edges → m.get e ≠ m'.get e := fun he => (hedges e he).2
    cases ha : m.get e with
    | none =>
      rw [level_of_none ha]
      split
      · next he =>
        obtain ⟨b, hb⟩ := Option.ne_none_iff_exists'.1 fun hb => hne he (ha.trans hb.symm)
        rw [level_of_get hb]
        omega
      · exact Nat.zero_le _
    | some a =>
      obtain ⟨b, hb, hab⟩ := hraise e a ha
      rw [level_of_get ha, level_of_get hb]
      split
      · next he =>
        have hlt : a < b := lt_of_le_of_ne hab fun h => hne he (by rw [ha, hb, h])
        have := hrank (hm e a ha) (hm' e b hb) hlt
        omega
      · have := hrank.monotoneOn (hm e a ha) (hm' e b hb) hab
        omega
  -- The edges in question are among those that are counted, each once.
  have hcount : (∑ i ∈ Finset.range N, if (⟨i⟩ : EdgeId) ∈ edges then 1 else 0) = edges.length := by
    have hindex : (edges.map Handle.index).Nodup :=
      hnodup.map fun _ _ => Handle.index_inj.1
    rw [← Finset.card_filter, ← List.length_map Handle.index,
      ← List.toFinset_card_of_nodup hindex]
    refine congrArg Finset.card (Finset.ext fun i => ?_)
    rw [Finset.mem_filter, Finset.mem_range, List.mem_toFinset, List.mem_map]
    constructor
    · exact fun h => ⟨⟨i⟩, h.2, rfl⟩
    · rintro ⟨e, he, rfl⟩
      exact ⟨(hedges e he).1, he⟩
  calc m.levels rank N + edges.length
      = ∑ i ∈ Finset.range N,
          (m.level rank ⟨i⟩ + if (⟨i⟩ : EdgeId) ∈ edges then 1 else 0) := by
        rw [Finset.sum_add_distrib, hcount, levels]
    _ ≤ m'.levels rank N := Finset.sum_le_sum fun i _ => hlevel ⟨i⟩

end FactMap

/-! ### Visits -/

namespace Worklist

theorem length_foldl_enqueue_le (ns queue : List NodeId) :
    (ns.foldl enqueue queue).length ≤ queue.length + ns.length := by
  induction ns generalizing queue with
  | nil => exact le_rfl
  | cons n ns ih =>
    refine (ih (enqueue queue n)).trans ?_
    rw [enqueue]
    split
    · rw [List.length_cons]
      omega
    · rw [List.length_append, List.length_cons, List.length_cons, List.length_nil]
      omega

variable [DecidableEq A] [Fact A] {an : Analysis A} {g : Graph} {p : Program}
  {f : NodeId → EdgeId → A → A} {w v : Worklist A} {n : NodeId} {rest : List NodeId}

/-- The edges whose facts a visit of `n` changes. -/
def changes (an : Analysis A) (g : Graph) (f : NodeId → EdgeId → A → A) (w : Worklist A)
    (n : NodeId) : List EdgeId :=
  (an.direction.outputs g n).filter fun e => w.facts.get e ≠ some (due an g f w n e)

/-- A visit counts the facts that it changes, and no more nodes join the queue than that. -/
theorem updates_visit (hg : g.Indexed) (hf : an.FollowsAt g p f n) (hw : w.facts.changed = [])
    (hv : w.visit an g p n rest = .ok v) :
    v.updates = w.updates + (changes an g f w n).length ∧
      v.queue.length ≤ rest.length + (changes an g f w n).length := by
  obtain ⟨edges, hperm, hint⟩ := hf w.facts
  obtain ⟨m, hm, hv⟩ := Run.bind_eq_ok.1 hv
  obtain ⟨receivers, hreceivers, hv⟩ := Run.bind_eq_ok.1 hv
  cases hm.symm.trans hint
  cases hv
  have hnodup : edges.Nodup := hperm.nodup_iff.2 (an.direction.outputs_nodup hg)
  have hchanged : (w.facts.put edges fun e => some (due an g f w n e)).changed =
      edges.filter fun e => w.facts.get e ≠ some (due an g f w n e) := by
    rw [w.facts.changed_put hnodup, hw, List.nil_append]
  have hlength : (w.facts.put edges fun e => some (due an g f w n e)).changed.length =
      (changes an g f w n).length := by
    rw [hchanged]
    exact (hperm.filter _).length_eq
  have hedges : ∀ e ∈ (w.facts.put edges fun e => some (due an g f w n e)).changed,
      ∃ edge, g.edges.get? e = some edge := by
    intro e he
    rw [hchanged] at he
    obtain ⟨k, hk⟩ :=
      (an.direction.mem_outputs_iff hg).1 (hperm.mem_iff.1 (List.mem_filter.1 he).1)
    obtain ⟨edge, hedge, _⟩ := hk.receiver
    exact ⟨edge, hedge⟩
  refine ⟨congrArg (w.updates + ·) hlength, (length_foldl_enqueue_le _ _).trans ?_⟩
  cases hreceivers.symm.trans (an.receivers_eq hedges)
  rw [← hlength]
  exact Nat.add_le_add_left (List.length_filterMap_le _ _) _

variable [SemilatticeSup A] {S : Set A} {seq : List NodeId} {rank : A → Nat}

/-- A visit takes the facts as many levels up as it changes facts. -/
theorem levels_visit (hf : GrowingFrom an g f S seq) (hrank : StrictMonoOn rank S)
    (hw : RisingFrom an g f S seq w) (hq : w.queue = n :: rest) (hv : Visited an g f n rest w v) :
    w.facts.levels rank g.edges.size + (changes an g f w n).length ≤
      v.facts.levels rank g.edges.size := by
  refine FactMap.levels_add_le hrank hw.mem_set (hw.visit hf hq hv).mem_set (hw.raises hv)
    ((an.direction.outputs_nodup hf.indexed).filter _) fun e he => ?_
  obtain ⟨he, hne⟩ := List.mem_filter.1 he
  obtain ⟨k, hk⟩ := (an.direction.mem_outputs_iff hf.indexed).1 he
  obtain ⟨edge, hedge, _⟩ := hk.receiver
  rw [hv.get_of_mem he]
  exact ⟨Arena.get?_eq_some_lt hedge, of_decide_eq_true hne⟩

end Worklist

/-! ### Runs -/

namespace GrowingFrom

variable [DecidableEq A] [Fact A] [SemilatticeSup A] {an : Analysis A} {g : Graph} {p : Program}
  {f : NodeId → EdgeId → A → A} {S : Set A} {seq : List NodeId} {rank : A → Nat} {H : Nat}
  {w v : Worklist A} {n : NodeId} {rest : List NodeId}
  (hf : GrowingFrom an g f S seq)
  (hfollows : ∀ w v : Worklist A, ∀ n rest, w.visit an g p n rest = .ok v → an.FollowsAt g p f n)
include hf hfollows

/-- Every visit that gives a result keeps the invariant. -/
theorem visited_of_visit (hw : RisingFrom an g f S seq w) (hv : w.visit an g p n rest = .ok v) :
    Worklist.Visited an g f n rest w v := by
  obtain ⟨v', hv', hvisited⟩ :=
    Worklist.visit_followsAt hf.indexed (hfollows w v n rest hv) rest hw.changed
  cases hv.symm.trans hv'
  exact hvisited

theorem rising_of_reaches (h : Worklist.Reaches an g p (an.startFrom seq) w) :
    RisingFrom an g f S seq w := by
  induction h with
  | start => exact RisingFrom.start an g f S seq
  | visit _ hq hv ih => exact ih.visit hf hq (hf.visited_of_visit hfollows ih hv)

/-- As many facts have changed as levels were gained, at most. -/
theorem updates_le_levels (hrank : StrictMonoOn rank S)
    (h : Worklist.Reaches an g p (an.startFrom seq) w) :
    w.updates ≤ w.facts.levels rank g.edges.size := by
  induction h with
  | start => exact Nat.zero_le _
  | @visit w v n rest hreaches hq hv ih =>
    have hw := hf.rising_of_reaches hfollows hreaches
    have hlevels :=
      Worklist.levels_visit hf hrank hw hq (hf.visited_of_visit hfollows hw hv)
    have hupdates := (Worklist.updates_visit hf.indexed (hfollows w v n rest hv) hw.changed hv).1
    omega

/-- The facts on each edge change once more than they can grow, at most. -/
theorem updates_le (hrank : StrictMonoOn rank S) (hH : ∀ a ∈ S, rank a ≤ H)
    (h : Worklist.Reaches an g p (an.startFrom seq) w) : w.updates ≤ g.edges.size * (H + 1) :=
  (hf.updates_le_levels hfollows hrank h).trans <| FactMap.levels_le fun e a ha =>
    hH a ((hf.rising_of_reaches hfollows h).mem_set e a ha)

omit hfollows in
/-- Every node is visited once, and once more for each fact that changes, at most. -/
theorem exists_run_of_rank (hrank : StrictMonoOn rank S) (hH : ∀ a ∈ S, rank a ≤ H)
    (hfollows : ∀ n ∈ seq, an.FollowsAt g p f n) {bound : Nat}
    (hbound : seq.length + g.edges.size * (H + 1) ≤ bound) :
    ∃ v, Worklist.run an g p bound (an.startFrom seq) = .ok v := by
  -- What is in the queue and what facts can still grow shrinks from visit to visit.
  suffices ∀ w, RisingFrom an g f S seq w →
      w.queue.length + g.edges.size * (H + 1) ≤ bound + w.facts.levels rank g.edges.size →
      ∃ v, Worklist.run an g p bound w = .ok v from
    this _ (RisingFrom.start an g f S seq) (hbound.trans (Nat.le_add_right _ _))
  clear hbound
  induction bound with
  | zero =>
    intro w hw hle
    have hlevels : w.facts.levels rank g.edges.size ≤ g.edges.size * (H + 1) :=
      FactMap.levels_le fun e a ha => hH a (hw.mem_set e a ha)
    have hq : w.queue = [] := List.eq_nil_of_length_eq_zero (by omega)
    exact ⟨w, by rw [Worklist.run, hq]⟩
  | succ bound ih =>
    intro w hw hle
    cases hq : w.queue with
    | nil => exact ⟨w, by rw [Worklist.run, hq]⟩
    | cons n rest =>
      have hn : an.FollowsAt g p f n := hfollows n (hw.queued n (hq ▸ List.mem_cons_self))
      obtain ⟨v, hv, hvisited⟩ := Worklist.visit_followsAt hf.indexed hn rest hw.changed
      have hlevels := Worklist.levels_visit hf hrank hw hq hvisited
      have hqueue := (Worklist.updates_visit hf.indexed hn hw.changed hv).2
      rw [Worklist.run_succ hq hv]
      refine ih v (hw.visit hf hq hvisited) ?_
      rw [hq, List.length_cons] at hle
      omega

end GrowingFrom

/-! ### Known values -/

/-- The variable that an operation writes. -/
def NodeKind.written : NodeKind → Option VarId
  | .write v _ => some v
  | _ => none

namespace Inlining

variable {oracle : Oracle} {p : Program} {g : Graph} {vs : Finset VarId} {u v : VarId}

/-- The variables that the nodes of a graph write, of those that are tracked. -/
def written (oracle : Oracle) (p : Program) (g : Graph) : Finset VarId :=
  (g.order.filterMap fun n => (g.nodes.get? n).bind fun node => node.kind.written).toFinset.filter
    fun v => (oracle.isTrackable p v).toOption = some true

theorem mem_written_of_put {n : NodeId} {value : Option ExprId} (hn : n ∈ g.order)
    (h : HasEffect oracle p g n (.put v value)) : v ∈ written oracle p g := by
  obtain ⟨node, hnode, heffect⟩ := h
  cases hkind : node.kind with
  | write u x =>
    rw [hkind] at heffect
    obtain ⟨tracked, htracked, heffect⟩ := Run.bind_eq_ok.1 heffect
    cases tracked with
    | false => cases heffect
    | true =>
      obtain ⟨inlinable, _, heffect⟩ := Run.bind_eq_ok.1 heffect
      have huv : u = v := by cases inlinable <;> cases heffect <;> rfl
      subst huv
      refine Finset.mem_filter.2 ⟨List.mem_toFinset.2 (List.mem_filterMap.2 ⟨n, hn, ?_⟩), ?_⟩
      · rw [hnode, Option.bind_some, hkind, NodeKind.written]
      · rw [htracked]
        rfl
  | call call =>
    rw [hkind] at heffect
    obtain ⟨effects, _, heffect⟩ := Run.bind_eq_ok.1 heffect
    cases effects <;> cases heffect
  | _ =>
    rw [hkind] at heffect
    cases heffect

/-- The effects of nodes, as far as they can be told. -/
theorem exists_effects_told (oracle : Oracle) (p : Program) (g : Graph) :
    ∃ E : NodeId → Effect, ∀ n, HasEffect oracle p g n (E n) ∨
      E n = .keep ∧ ∀ f, ¬HasEffect oracle p g n f := by
  have heffect : ∀ n, ∃ f, HasEffect oracle p g n f ∨
      f = .keep ∧ ∀ f, ¬HasEffect oracle p g n f := fun n => by
    by_cases h : ∃ f, HasEffect oracle p g n f
    · obtain ⟨f, hf⟩ := h
      exact ⟨f, .inl hf⟩
    · exact ⟨.keep, .inr ⟨rfl, not_exists.1 h⟩⟩
  exact Classical.skolem.1 heffect

namespace Known

theorem isUnknown_iff {k : Known} : k.isUnknown u = true ↔ k.Unknown u := by
  rw [isUnknown, beq_iff_eq, Unknown, HandleMap.contains, value]
  rcases k.find? u with _ | (_ | _) <;> simp

/-- How many of certain variables are unknown. -/
def unknowns (vs : Finset VarId) (k : Known) : Nat := (vs.filter k.Unknown).card

theorem unknowns_le (k : Known) : k.unknowns vs ≤ vs.card := Finset.card_filter_le _ _

/-- A fact grows by making more variables unknown. -/
theorem unknowns_strictMonoOn (vs : Finset VarId) : StrictMonoOn (unknowns vs) (about vs) := by
  intro a _ b hb hab
  obtain ⟨u, hub, hua⟩ : ∃ u, b.Unknown u ∧ ¬a.Unknown u := by
    by_contra hall
    push Not at hall
    exact hab.ne (eq_of_unknown hab.le hall)
  refine Finset.card_lt_card ((Finset.ssubset_iff_of_subset ?_).2 ⟨u, ?_, ?_⟩)
  · intro v hv
    rw [Finset.mem_filter] at hv ⊢
    exact ⟨hv.1, hv.2.mono hab.le⟩
  · exact Finset.mem_filter.2 ⟨hb u hub.1, hub⟩
  · exact fun h => hua (Finset.mem_filter.1 h).2

end Known

/-- On a graph of a body, solving only ever puts facts in place of others in which no unknown
    variable becomes known, and no value is known that was not. All facts together change at most
    once more on each edge than there are tracked variables that the graph writes; and if the
    effect of every node can be told, solving ends within one visit for each node and for each of
    these changes. -/
theorem solve_updates_le {p : Program} {body : StmtId} {g : Graph}
    (hg : Graph.ofBody p body = .ok (.ok g)) (oracle : Oracle) :
    (∀ bound, (analysis oracle).solve bound g p = (do
      return (← Worklist.run (analysis oracle).toAnalysis g p bound ((analysis oracle).start g)).facts)) ∧
    (∀ w w' n rest,
      Worklist.Reaches (analysis oracle).toAnalysis g p ((analysis oracle).start g) w →
      w.queue = n :: rest → w.visit (analysis oracle).toAnalysis g p n rest = .ok w' →
      ∀ e a, w.facts.get e = some a → ∃ b, w'.facts.get e = some b ∧
        (∀ u, a.isUnknown u = true → b.isUnknown u = true) ∧
        ∀ u x, b.value u = some x → a.value u = some x) ∧
    (∀ bound updates m,
      (analysis oracle).propagate bound g p { initial := {} } g.order = .ok (updates, m) →
      updates ≤ g.edges.size * ((written oracle p g).card + 1)) ∧
    ((∀ n ∈ g.order, ∃ f, HasEffect oracle p g n f) →
      ∀ bound, g.order.length + g.edges.size * ((written oracle p g).card + 1) ≤ bound →
        ∃ updates m,
          (analysis oracle).propagate bound g p { initial := {} } g.order = .ok (updates, m)) := by
  obtain ⟨hlinked, hlaid⟩ := Graph.ofBody_laidOut hg
  have hwired := hlinked.toWired
  obtain ⟨E, hE⟩ := exists_effects_told oracle p g
  have hput : ∀ n ∈ g.order, ∀ v value, E n = .put v value → v ∈ written oracle p g := by
    intro n hn v value hEn
    rcases hE n with h | ⟨h, _⟩
    · exact mem_written_of_put hn (hEn ▸ h)
    · cases hEn.symm.trans h
  have hgrow := (growing_about oracle hwired (hlaid.ordered hwired) hput).along_sequence
  -- Where a visit gives a result, the effect of the node can be told.
  have hfollows : ∀ w w' : Worklist Known, ∀ n rest,
      w.visit (analysis oracle).toAnalysis g p n rest = .ok w' →
      (analysis oracle).toAnalysis.FollowsAt g p (fun n _ => (E n).apply) n := by
    intro w w' n rest hvisit m
    obtain ⟨_, hint, _⟩ := Run.bind_eq_ok.1 hvisit
    obtain ⟨f, hf⟩ := exists_hasEffect_of_interpret hint
    exact ⟨_, .refl _, interpret_eq ((hE n).resolve_right fun h => h.2 f hf) m⟩
  have hrank := Known.unknowns_strictMonoOn (written oracle p g)
  have hrun : ∀ bound, (analysis oracle).propagate bound g p { initial := {} } g.order = (do
      let w ← Worklist.run (analysis oracle).toAnalysis g p bound ((analysis oracle).start g)
      return (w.updates, w.facts)) := by
    intro bound
    rw [Analysis.propagate_eq]
    change (Worklist.run _ g p bound { facts := _, queue := g.order.foldl enqueue [] } >>= _) = _
    rw [foldl_enqueue_nodup hwired.order_nodup]
    rfl
  refine ⟨fun bound => (analysis oracle).toAnalysis.solve_eq_run hwired.toIndexed bound p, ?raise, ?bounded,
    ?ends⟩
  case raise =>
    intro w w' n rest hreaches hq hvisit e a ha
    have hw := hgrow.rising_of_reaches hfollows hreaches
    obtain ⟨b, hb, hab⟩ := hw.raises (hgrow.visited_of_visit hfollows hw hvisit) e a ha
    refine ⟨b, hb, fun u hu => ?_, fun u x => Known.value_of_le hab⟩
    exact Known.isUnknown_iff.2 ((Known.isUnknown_iff.1 hu).mono hab)
  case bounded =>
    intro bound updates m h
    rw [hrun] at h
    obtain ⟨w, hw, h⟩ := Run.bind_eq_ok.1 h
    cases h
    exact hgrow.updates_le hfollows hrank (fun a _ => a.unknowns_le) (Worklist.run_reaches hw).1
  case ends =>
    intro htold bound hbound
    obtain ⟨w, hw⟩ := hgrow.exists_run_of_rank hrank (fun a _ => a.unknowns_le)
      (fun n hn m => by
        obtain ⟨f, hf⟩ := htold n hn
        exact ⟨_, .refl _, interpret_eq ((hE n).resolve_right fun h => h.2 f hf) m⟩) hbound
    rw [hrun]
    exact ⟨w.updates, w.facts, Run.bind_eq_ok.2 ⟨w, hw, rfl⟩⟩

/-- A loop, whose facts change once more when the one at its end comes round. -/
theorem solve_updates_le_loop : ∃ g, Graph.ofBody sampleLoop ⟨0⟩ = .ok (.ok g) ∧
    ∃ updates m, (analysis .declared).propagate (g.order.length +
        g.edges.size * ((written .declared sampleLoop g).card + 1)) g sampleLoop { initial := {} }
        g.order = .ok (updates, m) ∧
      updates ≤ g.edges.size * ((written .declared sampleLoop g).card + 1) := by
  obtain ⟨g, hg⟩ : ∃ g, Graph.ofBody sampleLoop ⟨0⟩ = .ok (.ok g) := ⟨_, rfl⟩
  obtain ⟨_, _, hbounded, hends⟩ := solve_updates_le hg .declared
  obtain ⟨updates, m, hm⟩ := hends (exists_hasEffect_sampleLoop hg) _ le_rfl
  exact ⟨g, hg, updates, m, hm, hbounded _ updates m hm⟩

end Inlining

end Dataflow
