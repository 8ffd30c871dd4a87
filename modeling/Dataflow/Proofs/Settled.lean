import Dataflow.Proofs.Effects
import Dataflow.Proofs.Layout

/-!
# Settled facts

Facts are settled if every edge holds what the effect of the node it leaves makes of the facts
that arrive there. Solving from scratch settles them (`exists_solve_settled`).

Where the nodes are in order, a value that is known at some place was put there by some node; and
as every node that puts a value forgets all others, no two variables are known at one place
(`Settled.exists_put`).
-/

namespace Dataflow.Inlining

variable {g : Graph} {p : Program} {F : FactMap Known} {E : NodeId → Effect} {n m : NodeId}
  {u v : VarId} {x : ExprId}

/-! ### Where edges meet -/

/-- The value that a variable is known to have on an edge. -/
def valueOn (F : FactMap Known) (u : VarId) (e : EdgeId) : Option ExprId :=
  (F.get e).bind (Known.value · u)

theorem contains_joined (hF : F.initial = {}) (edges : List EdgeId) :
    (F.joined edges).contains u = edges.any fun e => (F.get e).any (HandleMap.contains · u) := by
  rw [FactMap.joined_eq_joinAll, hF, Known.contains_joinAll]
  induction edges with
  | nil => rfl
  | cons e edges ih =>
    rw [List.any_cons, ← ih, List.filterMap_cons]
    cases F.get e <;> rfl

/-- A value is known where edges meet if it is on each of them, and all of them hold facts. -/
theorem value_joined (hF : F.initial = {}) {edges : List EdgeId}
    (hedges : ∀ e ∈ edges, (F.get e).isSome) :
    (F.joined edges).value u = some x ↔ edges ≠ [] ∧ ∀ e ∈ edges, valueOn F u e = some x := by
  rw [FactMap.joined_eq_joinAll, hF, Known.value_joinAll]
  refine and_congr ?_ ?_
  · refine not_congr ⟨fun h => ?_, fun h => h ▸ rfl⟩
    refine List.eq_nil_iff_forall_not_mem.2 fun e he => ?_
    have := List.filterMap_eq_nil_iff.1 h e he
    have hsome := hedges e he
    rw [this] at hsome
    cases hsome
  · constructor
    · intro h e he
      obtain ⟨k, hk⟩ := Option.isSome_iff_exists.1 (hedges e he)
      rw [valueOn, hk]
      exact h k (List.mem_filterMap.2 ⟨e, he, hk⟩)
    · intro h k hk
      obtain ⟨e, he, hk⟩ := List.mem_filterMap.1 hk
      have := h e he
      rw [valueOn, hk] at this
      exact this

/-! ### Settled facts -/

/-- Each edge holds what the effect of the node it leaves makes of the facts that arrive there. -/
structure Settled (g : Graph) (F : FactMap Known) (E : NodeId → Effect) : Prop where
  initial : F.initial = {}
  changed : F.changed = []
  fact : ∀ n ∈ g.order, ∀ e ∈ g.outEdges.get n, F.get e = some ((E n).apply (F.joinIncoming g n))

/-- The fact on the edges that leave a node. -/
def leaving (g : Graph) (F : FactMap Known) (E : NodeId → Effect) (n : NodeId) : Known :=
  (E n).apply (F.joinIncoming g n)

namespace Settled

variable (h : Settled g F E) (hg : g.Wired)
include h hg

theorem get_of_joins {e : EdgeId} (he : g.Joins e m n) : F.get e = some (leaving g F E m) :=
  h.fact m (hg.source_mem he) e ((hg.mem_outEdges m e).2 ⟨n, he⟩)

/-- Every edge that enters a node holds a fact. -/
theorem isSome_of_mem_inEdges {e : EdgeId} (he : e ∈ g.inEdges.get n) : (F.get e).isSome := by
  obtain ⟨m, hm⟩ := (hg.mem_inEdges n e).1 he
  rw [h.get_of_joins hg hm]
  rfl

/-- A value known where edges meet is known on all of them. -/
theorem value_leaving (hx : (F.joinIncoming g n).value u = some x) {a : OpenEdge}
    (ha : a ∈ g.arrivals n) : (leaving g F E a.1).value u = some x := by
  obtain ⟨e, he⟩ := hg.mem_arrivals.1 (show (a.1, a.2) ∈ g.arrivals n from ha)
  have hjoins : g.Joins e a.1 n := ⟨a.2, he⟩
  have hvalue := ((value_joined h.initial fun _ => h.isSome_of_mem_inEdges hg).1 hx).2 e
    ((hg.mem_inEdges n e).2 ⟨a.1, hjoins⟩)
  rw [valueOn, h.get_of_joins hg hjoins] at hvalue
  exact hvalue

/-- Where all edges that meet hold one fact, that is what arrives. -/
theorem joinIncoming_eq {k : Known} (hne : g.arrivals n ≠ [])
    (hk : ∀ a ∈ g.arrivals n, leaving g F E a.1 = k) : F.joinIncoming g n = k := by
  have hedge : ∀ e ∈ g.inEdges.get n, F.get e = some k := by
    intro e he
    obtain ⟨m, hm⟩ := (hg.mem_inEdges n e).1 he
    obtain ⟨label, ha⟩ := hg.mem_arrivals_iff.2 ⟨e, hm⟩
    rw [h.get_of_joins hg hm, hk _ ha]
  obtain ⟨e, he⟩ := List.exists_mem_of_ne_nil _ (mt hg.arrivals_eq_nil_iff.2 hne)
  refine Known.ext_answers (fun u => ?_) fun u => Option.ext fun x => ?_
  · rw [FactMap.joinIncoming, contains_joined h.initial, Bool.eq_iff_iff, List.any_eq_true]
    constructor
    · rintro ⟨d, hd, hc⟩
      rw [hedge d hd] at hc
      exact hc
    · intro hc
      exact ⟨e, he, by rw [hedge e he]; exact hc⟩
  · rw [FactMap.joinIncoming, value_joined h.initial fun _ => h.isSome_of_mem_inEdges hg]
    constructor
    · rintro ⟨_, hx⟩
      have := hx e he
      rw [valueOn, hedge e he] at this
      exact this
    · intro hx
      exact ⟨List.ne_nil_of_mem he, fun d hd => by rw [valueOn, hedge d hd]; exact hx⟩

/-- Values known at one place were put there by one node, which stands before it. -/
theorem exists_put (hord : Direction.forward.Ordered g) (hn : n ∈ g.order) {y : ExprId}
    (hx : (F.joinIncoming g n).value u = some x) (hy : (F.joinIncoming g n).value v = some y) :
    ∃ m ∈ g.order, E m = .put u (some x) ∧ E m = .put v (some y) ∧
      g.order.idxOf m < g.order.idxOf n := by
  induction hplace : g.order.idxOf n using Nat.strong_induction_on generalizing n with
  | _ place ih =>
    -- Some edge comes from an earlier node. Either that node puts the values, or they arrive there.
    have hin := ((value_joined h.initial fun _ => h.isSome_of_mem_inEdges hg).1 hx).1
    obtain ⟨e, k, hlead, hk⟩ := hord n hn hin
    obtain ⟨label, ha⟩ := hg.mem_arrivals_iff.2 ⟨e, hlead⟩
    have hx' := h.value_leaving hg hx ha
    have hy' := h.value_leaving hg hy ha
    rw [leaving, Effect.value_apply] at hx' hy'
    have hkorder : k ∈ g.order := hg.source_mem hlead
    have hlt := hk.idxOf_lt hg.order_nodup
    rw [Direction.sequence, Direction.arrange, hplace] at hlt
    have hearlier : (F.joinIncoming g k).value u = some x → (F.joinIncoming g k).value v = some y →
        ∃ m ∈ g.order, E m = .put u (some x) ∧ E m = .put v (some y) ∧ g.order.idxOf m < place := by
      intro hx' hy'
      obtain ⟨m, hm, hput, hput', hbefore⟩ := ih _ hlt hkorder hx' hy' rfl
      exact ⟨m, hm, hput, hput', Nat.lt_trans hbefore hlt⟩
    cases hE : E k with
    | keep =>
      rw [hE] at hx' hy'
      exact hearlier hx' hy'
    | forget =>
      rw [hE] at hx'
      cases hx'
    | put w value =>
      rw [hE] at hx' hy'
      simp only [Effect.after] at hx' hy'
      split at hx'
      · next hu =>
        split at hy'
        · next hv =>
          subst hu hv hx'
          obtain rfl : x = y := Option.some.inj hy'
          exact ⟨k, hkorder, hE, hE, hlt⟩
        · cases hy'
      · cases hx'
    | spare w =>
      rw [hE] at hx' hy'
      simp only [Effect.after] at hx' hy'
      split at hx'
      · split at hy'
        · exact hearlier hx' hy'
        · cases hy'
      · cases hx'

end Settled

/-! ### Rows -/

section Rows

variable {parent : Option NodeId} {os : List Operation} {ins outs ends : List OpenEdge}
  {ns : List NodeId} {k : Known} (h : Settled g F E) (hg : g.Wired)
include h hg

/-- A fact that leads into a row arrives at each of its nodes and behind it, if none of them
    changes it. -/
theorem Settled.row (hrow : Spelled g parent os ins ns outs ends) (hkeep : ∀ n ∈ ns, E n = .keep)
    (hne : ins ≠ []) (hins : ∀ a ∈ ins, leaving g F E a.1 = k) :
    (∀ n ∈ ns, F.joinIncoming g n = k) ∧ outs ≠ [] ∧ ∀ a ∈ outs, leaving g F E a.1 = k := by
  -- A node of the row that is entered by such edges only, with the edge that leaves it.
  have hpass : ∀ {n : NodeId} {label : Option Label} {ins : List OpenEdge}, g.arrivals n = ins →
      E n = .keep → ins ≠ [] → (∀ a ∈ ins, leaving g F E a.1 = k) →
      F.joinIncoming g n = k ∧ ∀ a ∈ [(n, label)], leaving g F E a.1 = k := by
    intro n label ins harr hE hne hins
    subst harr
    have hjoin := h.joinIncoming_eq hg hne hins
    refine ⟨hjoin, fun a ha => ?_⟩
    rw [List.mem_singleton.1 ha, leaving, hE, hjoin]
    rfl
  induction hrow with
  | nil => exact ⟨fun n hn => absurd hn List.not_mem_nil, hne, hins⟩
  | op hn _ ih | nop hn _ ih =>
    rw [List.forall_mem_cons] at hkeep ⊢
    obtain ⟨hjoin, hleave⟩ := hpass hn.arrivals hkeep.1 hne hins
    obtain ⟨hrest, houts⟩ := ih hkeep.2 (List.cons_ne_nil _ _) hleave
    exact ⟨⟨hjoin, hrest⟩, houts⟩
  | call _ hm hn _ ih =>
    rw [List.forall_mem_cons, List.forall_mem_cons] at hkeep ⊢
    obtain ⟨hjoin, hleave⟩ := hpass hm.arrivals hkeep.1 hne hins
    obtain ⟨hjoin', hleave'⟩ := hpass hn.arrivals hkeep.2.1 (List.cons_ne_nil _ _) hleave
    obtain ⟨hrest, houts⟩ := ih hkeep.2.2 (List.cons_ne_nil _ _) hleave'
    exact ⟨⟨hjoin, hjoin', hrest⟩, houts⟩

end Rows

/-! ### Solving from scratch -/

namespace Known

/-- The facts that speak of certain variables only. -/
def about (vs : Set VarId) : Set Known := fun k => ∀ u, k.contains u = true → u ∈ vs

/-- The facts that speak of the first `N` variables only. -/
def within (N : Nat) : Set Known := fun k => ∀ u, k.contains u = true → u.index < N

/-- A fact says of a variable that its value is not known. -/
def Unknown (k : Known) (u : VarId) : Prop := k.contains u = true ∧ k.value u = none

instance (k : Known) (u : VarId) : Decidable (k.Unknown u) := inferInstanceAs (Decidable (_ ∧ _))

/-- What is unknown stays so in larger facts. -/
theorem Unknown.mono {a b : Known} (hab : a ≤ b) (h : a.Unknown u) : b.Unknown u := by
  rw [le_iff] at hab
  constructor
  · rw [← hab, contains_join, h.1, Bool.true_or]
  · rw [← hab, value_join, h.2]
    split <;> rfl

/-- A fact below another one is the same if it calls the same variables unknown. -/
theorem eq_of_unknown {a b : Known} (hab : a ≤ b) (h : ∀ u, b.Unknown u → a.Unknown u) :
    a = b := by
  rw [le_iff] at hab
  have hcontains : ∀ u, (a.contains u || b.contains u) = b.contains u := fun u => by
    rw [← contains_join, hab]
  have hvalue : ∀ u, (if a.value u = b.value u then a.value u else none) = b.value u := fun u => by
    rw [← value_join, hab]
  suffices ∀ u, a.contains u = b.contains u ∧ a.value u = b.value u from
    ext_answers (fun u => (this u).1) fun u => (this u).2
  intro u
  cases hb : b.value u with
  | some y =>
    have ha : a.value u = some y := by
      have := hvalue u
      grind
    exact ⟨by rw [contains_of_value ha, contains_of_value hb], ha⟩
  | none =>
    cases hc : b.contains u with
    | true =>
      obtain ⟨hca, hva⟩ := h u ⟨hc, hb⟩
      exact ⟨hca, hva⟩
    | false =>
      have hca : a.contains u = false := by simpa [hc] using hcontains u
      refine ⟨hca, Option.eq_none_iff_forall_ne_some.2 fun x hx => ?_⟩
      rw [contains_of_value hx] at hca
      cases hca

/-- There are no infinite ascending chains of facts about finitely many variables: each step makes
    some variable unknown. -/
instance (N : Nat) : WellFoundedGT (within N) := by
  let others (k : within N) : Finset Nat := (Finset.range N).filter fun i => ¬k.1.Unknown ⟨i⟩
  refine StrictAnti.wellFoundedGT (f := fun k => (others k).card) fun a b hab => ?_
  have hle : a.1 ≤ b.1 := hab.le
  obtain ⟨u, hub, hua⟩ : ∃ u, b.1.Unknown u ∧ ¬a.1.Unknown u := by
    by_contra hall
    push Not at hall
    exact hab.ne (Subtype.ext (eq_of_unknown hle hall))
  refine Finset.card_lt_card ((Finset.ssubset_iff_of_subset ?_).2 ⟨u.index, ?_, ?_⟩)
  · intro i hi
    rw [Finset.mem_filter] at hi ⊢
    exact ⟨hi.1, fun h => hi.2 (h.mono hle)⟩
  · exact Finset.mem_filter.2 ⟨Finset.mem_range.2 (b.2 u hub.1), hua⟩
  · exact fun h => (Finset.mem_filter.1 h).2 hub

end Known

/-- What the effects of nodes in order do makes facts about the variables that they put grow. -/
theorem growing_about (oracle : Oracle) (hg : g.Wired) (hord : Direction.forward.Ordered g)
    {vs : Set VarId} (hvs : ∀ n ∈ g.order, ∀ v value, E n = .put v value → v ∈ vs) :
    Growing (analysis oracle).toAnalysis g (fun n _ => (E n).apply) (Known.about vs) where
  join _ _ := rfl
  wired := hg
  ordered := hord
  monotone n _ _ _ := (E n).apply_monotone
  initial_mem u hu := by cases hu
  sup_mem a ha b hb u hu := by
    rcases Bool.or_eq_true_iff.1 (Known.contains_join.symm.trans hu) with hu | hu
    · exact ha u hu
    · exact hb u hu
  mem n hn _ k hk u hu := by
    rw [Effect.contains_apply, Bool.or_eq_true_iff] at hu
    rcases hu with hu | hu
    · cases hEn : E n with
      | put v value =>
        rw [hEn, Effect.names, decide_eq_true_eq] at hu
        exact hu ▸ hvs n hn v value hEn
      | _ =>
        rw [hEn] at hu
        cases hu
    · exact hk u hu

theorem growing (oracle : Oracle) (hg : g.Wired) (hord : Direction.forward.Ordered g) {N : Nat}
    (hN : ∀ n ∈ g.order, ∀ v value, E n = .put v value → v.index < N) :
    Growing (analysis oracle).toAnalysis g (fun n _ => (E n).apply) (Known.within N) :=
  growing_about oracle hg hord hN

/-- Solving settles the facts of inlining, if every node has an effect. -/
theorem exists_solve_settled {oracle : Oracle} (hg : g.Wired) (hord : Direction.forward.Ordered g)
    (hE : ∀ n ∈ g.order, HasEffect oracle p g n (E n)) {N : Nat}
    (hN : ∀ n ∈ g.order, ∀ v value, E n = .put v value → v.index < N) :
    ∃ bound F, Settled g F E ∧ ∀ B ≥ bound, (analysis oracle).solve B g p = .ok F := by
  have hf := growing oracle hg hord hN
  obtain ⟨bound, w, hw, hq, hsolve⟩ := hf.exists_solve (analysis_follows hE)
  refine ⟨bound, w.facts, ⟨hw.initial, hw.changed, fun n hn e he => ?_⟩, hsolve⟩
  exact hw.settled n hn (by rw [hq]; exact List.not_mem_nil) e he

end Dataflow.Inlining
