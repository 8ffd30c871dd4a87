import Dataflow.Proofs.Waves

/-!
# Where waves end

A node puts a new value of a variable where it put another one before. The nodes of the graph can be
visited in any order, and as often as one likes: once the facts are settled, they are always the
same ones (`Driven.get_eq`).

Which ones they are shows in two kinds of sets of edges. An old value stays on edges that can hold it
without help from others, such as those of a loop that nothing new enters (`Upheld`). The new value
comes to no edge outside a set that it cannot leave (`Swept`).

* `Driven`: what holds of facts that such visits lead to, kept by every visit (`Driven.visit`);
* `Rises.exists_settle`: settled facts are led to;
* `Driven.joinIncoming_eq`: before the node that puts the new value, they arrive as they did.
-/

namespace Dataflow.Inlining

variable {g : Graph} {p : Program} {F G G' : FactMap Known} {E A : NodeId → Effect} {k n : NodeId}
  {v : VarId} {a b : Option ExprId} {U : Set EdgeId} {y : ExprId}

/-- The node is entered, and by edges of `U` only. -/
def EnteredFrom (g : Graph) (U : Set EdgeId) (n : NodeId) : Prop :=
  g.inEdges.get n ≠ [] ∧ ∀ e ∈ g.inEdges.get n, e ∈ U

/-- An edge of `U` leaves a node that gives `v` the value `y`, or one that leaves `v` as it is and that
    is entered from `U`. -/
def Upheld (g : Graph) (A : NodeId → Effect) (v : VarId) (y : ExprId) (U : Set EdgeId) : Prop :=
  ∀ e m n, g.Joins e m n → e ∈ U →
    (A m).after v = (fun _ => some y) ∨ (A m).after v = id ∧ EnteredFrom g U m

/-- Every edge that leaves the node `k` is in `U`, and so is every edge that leaves a node which leaves
    `v` as it is and is entered from `U`. -/
def Swept (g : Graph) (A : NodeId → Effect) (k : NodeId) (v : VarId) (U : Set EdgeId) : Prop :=
  ∀ e m n, g.Joins e m n → m = k ∨ (A m).after v = id ∧ EnteredFrom g U m → e ∈ U

/-- The facts `G` come from the facts `F` by visits of nodes with the effects `A`, where the node `k`
    puts the new value `b` of the variable `v`. -/
structure Driven (g : Graph) (F : FactMap Known) (A : NodeId → Effect) (k : NodeId) (v : VarId)
    (b : Option ExprId) (G : FactMap Known) : Prop extends Differs g F v G where
  remains : ∀ e m n, g.Joins e m n → ∀ y, valueOn G v e = some y → some y ≠ b →
    valueOn F v e = some y
  upheld : ∀ y U, some y ≠ b → Upheld g A v y U →
    (∀ e m n, g.Joins e m n → e ∈ U → valueOn F v e = some y) →
    ∀ e m n, g.Joins e m n → e ∈ U → valueOn G v e = some y
  swept : b ≠ none → ∀ U, Swept g A k v U → ∀ e m n, g.Joins e m n → valueOn G v e = b → e ∈ U

/-! ### Settled facts -/

section Settled

variable (hG : Settled g G A) (hg : g.Wired)
include hG hg

theorem Settled.valueOn_eq {e : EdgeId} {m : NodeId} (he : g.Joins e m n) :
    valueOn G v e = (A m).after v ((G.joinIncoming g m).value v) := by
  rw [valueOn, hG.get_of_joins hg he, Option.bind_some, leaving, Effect.value_apply]

/-- The edges that hold a value in settled facts hold it without help from others. -/
theorem Settled.upheld (v : VarId) (y : ExprId) : Upheld g A v y {e | valueOn G v e = some y} := by
  intro e m n he hval
  replace hval := (hG.valueOn_eq hg he).symm.trans hval
  obtain hid | ⟨z, hconst, _⟩ := (A m).after_cases v
  · rw [hid] at hval
    exact .inr ⟨hid, (value_joined hG.initial fun _ => hG.isSome_of_mem_inEdges hg).1 hval⟩
  · rw [hconst] at hval
    exact .inl (hval ▸ hconst)

/-- The edges that hold the new value in settled facts are a set that it cannot leave. -/
theorem Settled.swept (hk : (A k).after v = fun _ => some y) :
    Swept g A k v {e | valueOn G v e = some y} := by
  rintro e m n he (rfl | ⟨hid, hfrom⟩)
  · exact (hG.valueOn_eq hg he).trans (congrFun hk _)
  · refine (hG.valueOn_eq hg he).trans ?_
    rw [hid]
    exact (value_joined hG.initial fun _ => hG.isSome_of_mem_inEdges hg).2 hfrom

end Settled

section Driven

variable (hF : Settled g F E) (hg : g.Wired) (hE : Rises g E A k v a b)
include hF hg hE

/-- Before any visit. -/
theorem Driven.start (hord : Direction.forward.Ordered g) (hab : a ≠ b) : Driven g F A k v b F where
  initial := hF.initial
  contains _ _ _ _ _ := rfl
  others _ _ _ _ _ _ := rfl
  remains _ _ _ _ _ hy _ := hy
  upheld _ _ _ _ hU := hU
  swept hb U _ e m n he hval := by
    have hout := (hg.mem_outEdges m e).2 ⟨n, he⟩
    exact absurd hval (hE.valueOn_ne hF hg hord hab hb (hg.source_mem he) hout)

omit hE in
/-- A value that arrives at a node is on all edges that enter it. -/
theorem Driven.value_joinIncoming_iff (h : Driven g F A k v b G) {x : ExprId} :
    (G.joinIncoming g n).value v = some x ↔ EnteredFrom g {e | valueOn G v e = some x} n :=
  value_joined h.initial fun _ => h.isSome hF hg

/-- A value other than the new one that is due behind a node was there before. -/
theorem Driven.remains_due (h : Driven g F A k v b G)
    (hy : (A n).after v ((G.joinIncoming g n).value v) = some y) (hb : some y ≠ b) :
    (E n).after v ((F.joinIncoming g n).value v) = some y := by
  -- The node is not the one that puts the new value, so it had this effect before.
  have hnk : n ≠ k := by
    rintro rfl
    rw [hE.after_source] at hy
    exact hb hy.symm
  rw [← hE.same n hnk]
  obtain hid | ⟨z, hconst, _⟩ := (A n).after_cases v
  · rw [hid] at hy ⊢
    obtain ⟨hne, hall⟩ := (h.value_joinIncoming_iff hF hg).1 hy
    refine (value_joined hF.initial fun _ => hF.isSome_of_mem_inEdges hg).2 ⟨hne, fun e he => ?_⟩
    obtain ⟨m, hm⟩ := (hg.mem_inEdges n e).1 he
    exact h.remains e m n hm y (hall e he) hb
  · rw [hconst] at hy ⊢
    exact hy

omit hE in
/-- An old value that edges hold without help from others is due where they enter. -/
theorem Driven.upheld_due (h : Driven g F A k v b G) (hb : some y ≠ b) (hU : Upheld g A v y U)
    (hold : ∀ e m n, g.Joins e m n → e ∈ U → valueOn F v e = some y)
    (hn : (A n).after v = (fun _ => some y) ∨ (A n).after v = id ∧ EnteredFrom g U n) :
    (A n).after v ((G.joinIncoming g n).value v) = some y := by
  rcases hn with hconst | ⟨hid, hne, hall⟩
  · rw [hconst]
  · rw [hid]
    refine (h.value_joinIncoming_iff hF hg).2 ⟨hne, fun e he => ?_⟩
    obtain ⟨m, hm⟩ := (hg.mem_inEdges n e).1 he
    exact h.upheld y U hb hU hold e m n hm (hall e he)

/-- The new value is due behind the node that puts it, and where it enters. -/
theorem Driven.swept_due (h : Driven g F A k v b G) (hb : b ≠ none) (hU : Swept g A k v U)
    (hn : n ∈ g.order) (hval : (A n).after v ((G.joinIncoming g n).value v) = b) :
    n = k ∨ (A n).after v = id ∧ EnteredFrom g U n := by
  obtain ⟨x, rfl⟩ := Option.ne_none_iff_exists'.1 hb
  by_cases hnk : n = k
  · exact .inl hnk
  obtain hid | ⟨z, hconst, hput⟩ := (A n).after_cases v
  · rw [hid] at hval
    obtain ⟨hne, hall⟩ := (h.value_joinIncoming_iff hF hg).1 hval
    refine .inr ⟨hid, hne, fun e he => ?_⟩
    obtain ⟨m, hm⟩ := (hg.mem_inEdges n e).1 he
    exact h.swept hb U hU e m n hm (hall e he)
  · rw [hconst] at hval
    subst hval
    exact absurd ((hE.same n hnk).symm.trans (hput hb)) (hE.unique hb n hn hnk)

/-- Every visit keeps this. -/
theorem Driven.visit {oracle : Oracle} {rest : List NodeId} {w w' : Worklist Known}
    (h : Driven g F A k v b w.facts)
    (hv : Worklist.Visited (analysis oracle).toAnalysis g (fun n _ => (A n).apply) n rest w w') :
    Driven g F A k v b w'.facts := by
  -- An edge holds what is due there, or what it held.
  have hedge : ∀ e m m', g.Joins e m m' → w'.facts.get e = some (leaving g w.facts A m) ∨
      w'.facts.get e = w.facts.get e := by
    intro e m m' he
    have hout : e ∈ g.outEdges.get m := (hg.mem_outEdges m e).2 ⟨m', he⟩
    by_cases hmn : m = n
    · subst hmn
      exact .inl (hv.get_of_mem hout)
    · exact .inr (hv.get_of_ne hg.toIndexed hmn hout)
  have hvalue : ∀ e m m', g.Joins e m m' →
      valueOn w'.facts v e = (A m).after v ((w.facts.joinIncoming g m).value v) ∨
        valueOn w'.facts v e = valueOn w.facts v e := by
    intro e m m' he
    rcases hedge e m m' he with hnew | hsame
    · left
      rw [valueOn, hnew, Option.bind_some, leaving, Effect.value_apply]
    · right
      rw [valueOn, hsame, valueOn]
  constructor
  case toDiffers =>
    refine ⟨hv.initial.trans h.initial, fun e m m' he u => ?_, fun e m m' he u hu => ?_⟩
    · rcases hedge e m m' he with hnew | hsame
      · rw [hnew, hF.get_of_joins hg he, Option.map_some, Option.map_some,
          h.contains_leaving hF hg hE]
      · rw [hsame]
        exact h.contains e m m' he u
    · rcases hedge e m m' he with hnew | hsame
      · rw [valueOn, valueOn, hnew, hF.get_of_joins hg he, Option.bind_some, Option.bind_some,
          h.value_leaving hF hg hE m hu]
      · rw [valueOn, hsame]
        exact h.others e m m' he u hu
  case remains =>
    intro e m m' he y hy hb
    rcases hvalue e m m' he with hnew | hsame
    · rw [hF.valueOn_eq hg he]
      exact h.remains_due hF hg hE (hnew ▸ hy) hb
    · exact h.remains e m m' he y (hsame ▸ hy) hb
  case upheld =>
    intro y U hb hU hold e m m' he heU
    rcases hvalue e m m' he with hnew | hsame
    · exact hnew.trans (h.upheld_due hF hg hb hU hold (hU e m m' he heU))
    · exact hsame.trans (h.upheld y U hb hU hold e m m' he heU)
  case swept =>
    intro hb U hU e m m' he hval
    rcases hvalue e m m' he with hnew | hsame
    · exact hU e m m' he (h.swept_due hF hg hE hb hU (hg.source_mem he) (hnew ▸ hval))
    · exact h.swept hb U hU e m m' he (hsame ▸ hval)

/-- This holds where a run ends that starts with a visit of the node `k`. -/
theorem Driven.of_run (hord : Direction.forward.Ordered g) (hab : a ≠ b) (hk : k ∈ g.order)
    {oracle : Oracle} (hA : ∀ n ∈ g.order, HasEffect oracle p g n (A n)) {w w' : Worklist Known}
    {bound : Nat} (hvisit : Worklist.visit (analysis oracle).toAnalysis g p k []
      { facts := F, queue := [k] } = .ok w)
    (hrun : Worklist.run (analysis oracle).toAnalysis g p bound { w with updates := 0 } = .ok w') :
    Driven g F A k v b w'.facts := by
  let Inv (w : Worklist Known) : Prop := Driven g F A k v b w.facts ∧ w.facts.changed = [] ∧
    ∀ n ∈ w.queue, n ∈ g.order
  have hkeep : ∀ w n rest, Inv w → w.queue = n :: rest →
      ∃ w', w.visit (analysis oracle).toAnalysis g p n rest = .ok w' ∧ Inv w' := by
    rintro w n rest ⟨hdriven, hchanged, hqueued⟩ hq
    have hn : n ∈ g.order := hqueued n (hq ▸ List.mem_cons_self)
    obtain ⟨w', hvisit, hv⟩ := Worklist.visit_follows hg.toIndexed (analysis_follows hA) hn rest hchanged
    exact ⟨w', hvisit, hdriven.visit hF hg hE hv, hv.changed, hv.queued hg hq hqueued⟩
  have hstart : Inv { facts := F, queue := [k] } :=
    ⟨.start hF hg hE hord hab, hF.changed, List.forall_mem_singleton.2 hk⟩
  obtain ⟨_, hvisit', hw⟩ := hkeep _ k [] hstart rfl
  cases hvisit.symm.trans hvisit'
  have hw' : Inv { w with updates := 0 } := hw
  exact ((Worklist.run_reaches hrun).1.invariant hkeep hw').1

omit hF hE in
/-- A value other than the new one that settled facts have on an edge, all settled facts have
    there. -/
theorem Driven.value_of_value (h : Driven g F A k v b G) (h' : Driven g F A k v b G')
    (hG : Settled g G A) {e : EdgeId} {m : NodeId} (he : g.Joins e m n)
    (hy : valueOn G v e = some y) (hb : some y ≠ b) : valueOn G' v e = some y :=
  h'.upheld y _ hb (hG.upheld hg v y) (fun d l m' hd hval => h.remains d l m' hd y hval hb) e m n he hy

omit hF in
/-- So they do with the new value. -/
theorem Driven.new_of_new (h : Driven g F A k v b G) (hG' : Settled g G' A) {e : EdgeId} {m : NodeId}
    (he : g.Joins e m n) (hb : b ≠ none) (hval : valueOn G v e = b) : valueOn G' v e = b := by
  obtain ⟨x, rfl⟩ := Option.ne_none_iff_exists'.1 hb
  exact h.swept hb _ (hG'.swept hg hE.after_source) e m n he hval

omit hF in
/-- There are no two ways for the visits to end with settled facts. -/
theorem Driven.get_eq (h : Driven g F A k v b G) (h' : Driven g F A k v b G') (hG : Settled g G A)
    (hG' : Settled g G' A) {e : EdgeId} {m : NodeId} (he : g.Joins e m n) : G.get e = G'.get e := by
  have hvalue : valueOn G v e = valueOn G' v e := by
    refine Option.ext fun y => ?_
    by_cases hb : some y = b
    · have hne : b ≠ none := hb ▸ Option.some_ne_none y
      rw [hb]
      exact ⟨h.new_of_new hg hE hG' he hne, h'.new_of_new hg hE hG he hne⟩
    · exact ⟨fun hy => h.value_of_value hg h' hG he hy hb,
        fun hy => h'.value_of_value hg h hG' he hy hb⟩
  rw [hG.get_of_joins hg he, hG'.get_of_joins hg he]
  have hget := hG.get_of_joins hg he
  have hget' := hG'.get_of_joins hg he
  refine congrArg some (Known.ext_answers (fun u => ?_) fun u => ?_)
  · have hcontains := (h.contains e m n he u).trans (h'.contains e m n he u).symm
    rw [hget, hget'] at hcontains
    exact Option.some.inj hcontains
  · suffices valueOn G u e = valueOn G' u e by rwa [valueOn, valueOn, hget, hget'] at this
    by_cases hu : u = v
    · rw [hu, hvalue]
    · rw [h.others e m n he u hu, h'.others e m n he u hu]

/-- What is known at a node in settled facts was known there before, or the node stands behind the one
    that puts the new value. -/
theorem Driven.value_or (hord : Direction.forward.Ordered g) (h : Driven g F A k v b G)
    (hG : Settled g G A) (hn : n ∈ g.order) {u : VarId} {x : ExprId}
    (hx : (G.joinIncoming g n).value u = some x) :
    (F.joinIncoming g n).value u = some x ∨ g.order.idxOf k < g.order.idxOf n := by
  by_cases hu : u = v
  case neg => exact .inl (h.value_joinIncoming hF hg n hu ▸ hx)
  subst hu
  obtain ⟨hne, hall⟩ := (h.value_joinIncoming_iff hF hg).1 hx
  by_cases hb : some x = b
  · -- Nothing but `k` puts the new value.
    obtain ⟨m, hm, hput, _, hbefore⟩ := hG.exists_put hg hord hn hx hx
    by_cases hmk : m = k
    · exact .inr (hmk ▸ hbefore)
    · rw [hb] at hput
      exact absurd ((hE.same m hmk).symm.trans hput)
        (hE.unique (hb ▸ Option.some_ne_none x) m hm hmk)
  · refine .inl ((value_joined hF.initial fun _ => hF.isSome_of_mem_inEdges hg).2
      ⟨hne, fun e he => ?_⟩)
    obtain ⟨m, hm⟩ := (hg.mem_inEdges n e).1 he
    exact h.remains e m n hm x (hall e he) hb

/-- Up to the node that puts the new value, settled facts arrive as they did before, where the old
    value did not arrive. -/
theorem Driven.joinIncoming_eq (hord : Direction.forward.Ordered g) (hab : a ≠ b)
    (h : Driven g F A k v b G) (hG : Settled g G A) (hn : n ∈ g.order)
    (hbefore : g.order.idxOf n ≤ g.order.idxOf k)
    (hunseen : ∀ x, (F.joinIncoming g n).value v = some x → a ≠ some x) :
    G.joinIncoming g n = F.joinIncoming g n := by
  refine Known.ext_answers (h.contains_joinIncoming hF hg n) fun u => ?_
  by_cases hu : u = v
  case neg => exact h.value_joinIncoming hF hg n hu
  subst hu
  refine Option.ext fun x => ?_
  constructor
  · exact fun hx => (h.value_or hF hg hE hord hG hn hx).resolve_right (Nat.not_lt.2 hbefore)
  · intro hx
    obtain ⟨hne, hall⟩ := (value_joined hF.initial fun _ => hF.isSome_of_mem_inEdges hg).1 hx
    -- The edges that hold this value do not need the node `k` for that.
    have hupheld : Upheld g A u x {e | valueOn F u e = some x} := by
      intro e m m' he hval
      have hmk : m ≠ k := by
        rintro rfl
        have hold := (hF.valueOn_eq hg he).symm.trans hval
        rw [hE.old] at hold
        exact hunseen x hx ((if_pos rfl).symm.trans hold)
      rw [hE.same m hmk]
      exact hF.upheld hg u x e m m' he hval
    have hb : some x ≠ b := by
      obtain ⟨e, he⟩ := List.exists_mem_of_ne_nil _ hne
      obtain ⟨m, hm⟩ := (hg.mem_inEdges n e).1 he
      rintro rfl
      exact hE.valueOn_ne hF hg hord hab (Option.some_ne_none x) (hg.source_mem hm)
        ((hg.mem_outEdges m e).2 ⟨n, hm⟩) (hall e he)
    refine (h.value_joinIncoming_iff hF hg).2 ⟨hne, fun e he => ?_⟩
    obtain ⟨m, hm⟩ := (hg.mem_inEdges n e).1 he
    exact h.upheld x _ hb hupheld (fun _ _ _ _ hval => hval) e m n hm (hall e he)

/-- Interpreting the node `k` and settling the facts again leads there. -/
theorem Rises.exists_settle (hord : Direction.forward.Ordered g) (hab : a ≠ b) (hk : k ∈ g.order)
    {oracle : Oracle} (hA : ∀ n ∈ g.order, HasEffect oracle p g n (A n)) : ∃ m F' B,
      (analysis oracle).interpret k g p F = .ok m ∧
      (∀ c ≥ B, (analysis oracle).settle c g p m = .ok F') ∧ Settled g F' A ∧
      Driven g F A k v b F' := by
  obtain ⟨w, bound, w', hvisit, hrun, hsettled⟩ := hE.exists_run hF hg hord hk hab hA
  obtain ⟨m, hinterpret, hsettle⟩ := Analysis.exists_interpret rfl hvisit
  refine ⟨m, w'.facts, bound, hinterpret, fun c hc => ?_, hsettled,
    .of_run hF hg hE hord hab hk hA hvisit hrun⟩
  rw [hsettle, Worklist.run_mono hrun hc]
  rfl

end Driven

end Dataflow.Inlining
