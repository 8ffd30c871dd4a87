import Dataflow.Proofs.Settled
import Mathlib.Algebra.Order.BigOperators.Group.List
import Mathlib.Algebra.Order.Group.Nat

/-!
# Waves

One node puts a new value of a variable where it put another one, or none, before. The new value
runs through the graph like a wave: it drives the old one out, and where it meets other values the
variable is unknown.

Facts need not grow on the way, as a variable that was unknown may become known again. But a value
other than the new one never appears where it was not before, and the new value is never lost
where it came to: nothing else puts it (`Wave.changes`). So each edge changes twice at most, and the
wave ends with settled facts (`Rises.exists_run`).

* `Worklist.exists_run_of_lowers`: a run ends if each change of a fact lowers its rank;
* `Differs`: facts that differ in what they say about one variable;
* `Wave`: the invariant of the wave, kept by every visit (`Wave.visit`).
-/

namespace Dataflow

namespace Worklist

variable {A : Type} {an : Analysis A} {g : Graph} {p : Program} {Inv : Worklist A → Prop}

/-- The ranks of the facts on the first `N` edges, together. -/
def weight (rank : Option A → Nat) (N : Nat) (w : Worklist A) : Nat :=
  ((List.range N).map fun i => rank (w.facts.get ⟨i⟩)).sum

/-- A run ends if visits lower the rank of each fact that they change, and no node joins the queue
    unless a fact changes. -/
theorem exists_run_of_lowers (rank : Option A → Nat) (N : Nat)
    (hstep : ∀ w n rest, Inv w → w.queue = n :: rest → ∃ v, w.visit an g p n rest = .ok v ∧
      Inv v ∧ (∀ e, v.facts.get e = w.facts.get e ∨
        e.index < N ∧ rank (v.facts.get e) < rank (w.facts.get e)) ∧
      ((∀ e, v.facts.get e = w.facts.get e) → v.queue = rest))
    {w : Worklist A} (hw : Inv w) :
    ∃ bound v, run an g p bound w = .ok v ∧ Inv v ∧ v.queue = [] := by
  have hwf : WellFounded (InvImage (Prod.Lex (· < ·) (· < ·))
      fun w : Worklist A => (w.weight rank N, w.queue.length)) :=
    InvImage.wf _ (WellFounded.prod_lex wellFounded_lt wellFounded_lt)
  refine exists_run hwf (fun w n rest hinv hq => ?_) hw
  obtain ⟨v, hv, hinv', hlower, hsame⟩ := hstep w n rest hinv hq
  refine ⟨v, hv, hinv', ?_⟩
  by_cases hchange : ∀ e, v.facts.get e = w.facts.get e
  · have hweight : v.weight rank N = w.weight rank N := by
      simp only [weight, hchange]
    have hlen : v.queue.length < w.queue.length := by
      rw [hsame hchange, hq]
      exact Nat.lt_succ_self _
    change Prod.Lex _ _ (v.weight rank N, v.queue.length) (w.weight rank N, w.queue.length)
    rw [hweight]
    exact .right _ hlen
  · obtain ⟨e, he⟩ := not_forall.1 hchange
    have hle : ∀ i ∈ List.range N,
        rank (v.facts.get ⟨i⟩) ≤ rank (w.facts.get ⟨i⟩) := fun i _ =>
      (hlower ⟨i⟩).elim (fun h => (congrArg rank h).le) fun h => h.2.le
    obtain ⟨hN, hlt⟩ := (hlower e).resolve_left he
    exact .left _ _ (List.sum_lt_sum _ _ hle ⟨e.index, List.mem_range.2 hN, hlt⟩)

end Worklist

namespace Inlining

variable {g : Graph} {p : Program} {F : FactMap Known} {E E' : NodeId → Effect} {s n : NodeId}
  {v : VarId} {a b : Option ExprId} {w w' : Worklist Known}

/-- The effects `E'` are the effects `E` but for the node `s`, which puts the value `b` of the
    variable `v` where it put `a`. No other node puts `b`. -/
structure Rises (g : Graph) (E E' : NodeId → Effect) (s : NodeId) (v : VarId)
    (a b : Option ExprId) : Prop where
  same : ∀ n, n ≠ s → E' n = E n
  old : E s = .put v a
  new : E' s = .put v b
  unique : b ≠ none → ∀ n ∈ g.order, n ≠ s → E n ≠ .put v b

/-- The solver's state while a new value of `v` runs through the graph from the node `s` on, where
    the facts were `F`. -/
structure Wave (g : Graph) (F : FactMap Known) (E' : NodeId → Effect) (s : NodeId) (v : VarId)
    (b : Option ExprId) (w : Worklist Known) : Prop where
  initial : w.facts.initial = {}
  changed : w.facts.changed = []
  queued : ∀ n ∈ w.queue, n ∈ g.order
  contains : ∀ e u, (w.facts.get e).map (HandleMap.contains · u) =
    (F.get e).map (HandleMap.contains · u)
  others : ∀ e u, u ≠ v → valueOn w.facts u e = valueOn F u e
  settled : ∀ n ∈ g.order, n ∉ w.queue → ∀ e ∈ g.outEdges.get n,
    w.facts.get e = some ((E' n).apply (w.facts.joinIncoming g n))
  /-- A node that gives the variable a certain value has done so. -/
  given : ∀ n ∈ g.order, ∀ z, (E' n).after v = (fun _ => z) → ∀ e ∈ g.outEdges.get n,
    valueOn w.facts v e = z
  /-- A value other than the new one has passed each node that it arrives at. -/
  passed : ∀ n ∈ g.order, (E' n).after v = id → ∀ y,
    (w.facts.joinIncoming g n).value v = some y → some y ≠ b → ∀ e ∈ g.outEdges.get n,
    valueOn w.facts v e = some y
  /-- The new value only comes to where it arrives on all ways. -/
  carried : b ≠ none → ∀ n ∈ g.order, n ≠ s → ∀ e ∈ g.outEdges.get n, valueOn w.facts v e = b →
    (E' n).after v = id ∧ (w.facts.joinIncoming g n).value v = b
  /-- A value other than the new one is where it was before. -/
  remains : ∀ e y, valueOn w.facts v e = some y → some y ≠ b → valueOn F v e = some y

/-- How far the fact on an edge is from what it may become: other values are driven out, and the
    new one stays. -/
def waveRank (v : VarId) (b : Option ExprId) (k : Option Known) : Nat :=
  if k.bind (Known.value · v) = b then 0 else if k.bind (Known.value · v) = none then 1 else 2

theorem Rises.names_eq (h : Rises g E E' s v a b) (n : NodeId) (u : VarId) :
    (E' n).names u = (E n).names u := by
  by_cases hn : n = s
  · rw [hn, h.old, h.new]
    rfl
  · rw [h.same n hn]

theorem Rises.after_eq (h : Rises g E E' s v a b) (n : NodeId) {u : VarId} (hu : u ≠ v) :
    (E' n).after u = (E n).after u := by
  by_cases hn : n = s
  · rw [hn, h.old, h.new]
    funext x
    rw [Effect.after, Effect.after, if_neg (Ne.symm hu), if_neg (Ne.symm hu)]
  · rw [h.same n hn]

theorem Rises.after_source (h : Rises g E E' s v a b) : (E' s).after v = fun _ => b := by
  rw [h.new]
  exact funext fun _ => if_pos rfl

theorem Rises.ne_source (h : Rises g E E' s v a b) (hid : (E' n).after v = id) : n ≠ s := by
  rintro rfl
  have hconst := hid.symm.trans h.after_source
  cases (congrFun hconst none).trans (congrFun hconst (some ⟨0⟩)).symm

/-- On the edges of a graph, the facts `G` speak of the variables that the facts `F` speak of, and say
    the same as `F` about all of them but `v`. -/
structure Differs (g : Graph) (F : FactMap Known) (v : VarId) (G : FactMap Known) : Prop where
  initial : G.initial = {}
  contains : ∀ e m n, g.Joins e m n → ∀ u, (G.get e).map (HandleMap.contains · u) =
    (F.get e).map (HandleMap.contains · u)
  others : ∀ e m n, g.Joins e m n → ∀ u, u ≠ v → valueOn G u e = valueOn F u e

namespace Differs

variable {G : FactMap Known} (hF : Settled g F E) (hg : g.Wired) (hE : Rises g E E' s v a b)
  (h : Differs g F v G)
include hF hg h

theorem isSome {e : EdgeId} (he : e ∈ g.inEdges.get n) : (G.get e).isSome := by
  obtain ⟨m, hm⟩ := (hg.mem_inEdges n e).1 he
  have := congrArg Option.isSome (h.contains e m n hm v)
  rw [Option.isSome_map, Option.isSome_map, hF.isSome_of_mem_inEdges hg he] at this
  exact this

theorem contains_joinIncoming (n : NodeId) (u : VarId) :
    (G.joinIncoming g n).contains u = (F.joinIncoming g n).contains u := by
  rw [FactMap.joinIncoming, FactMap.joinIncoming, contains_joined h.initial,
    contains_joined hF.initial, Bool.eq_iff_iff, List.any_eq_true, List.any_eq_true]
  refine exists_congr fun d => and_congr_right fun hd => ?_
  obtain ⟨m, hm⟩ := (hg.mem_inEdges n d).1 hd
  have := h.contains d m n hm u
  cases hd : G.get d <;> cases hd' : F.get d <;> simp_all

theorem value_joinIncoming (n : NodeId) {u : VarId} (hu : u ≠ v) :
    (G.joinIncoming g n).value u = (F.joinIncoming g n).value u := by
  refine Option.ext fun x => ?_
  rw [FactMap.joinIncoming, FactMap.joinIncoming, value_joined h.initial fun _ => h.isSome hF hg,
    value_joined hF.initial fun _ => hF.isSome_of_mem_inEdges hg]
  refine and_congr_right fun _ => forall₂_congr fun d hd => ?_
  obtain ⟨m, hm⟩ := (hg.mem_inEdges n d).1 hd
  rw [h.others d m n hm u hu]

include hE

/-- The fact due behind a node speaks of the variables that the one before spoke of. -/
theorem contains_leaving (n : NodeId) (u : VarId) :
    (leaving g G E' n).contains u = (leaving g F E n).contains u := by
  rw [leaving, leaving, Effect.contains_apply, Effect.contains_apply, hE.names_eq,
    h.contains_joinIncoming hF hg]

/-- The fact due behind a node gives all other variables the values that they had there. -/
theorem value_leaving (n : NodeId) {u : VarId} (hu : u ≠ v) :
    (leaving g G E' n).value u = (leaving g F E n).value u := by
  rw [leaving, leaving, Effect.value_apply, Effect.value_apply, hE.after_eq n hu,
    h.value_joinIncoming hF hg n hu]

theorem contains_due {e : EdgeId} (hn : n ∈ g.order) (he : e ∈ g.outEdges.get n) (u : VarId) :
    some (((E' n).apply (G.joinIncoming g n)).contains u) =
      (F.get e).map (HandleMap.contains · u) := by
  rw [hF.fact n hn e he, Option.map_some]
  exact congrArg some (h.contains_leaving hF hg hE n u)

theorem value_due {e : EdgeId} (hn : n ∈ g.order) (he : e ∈ g.outEdges.get n) {u : VarId}
    (hu : u ≠ v) : ((E' n).apply (G.joinIncoming g n)).value u = valueOn F u e := by
  rw [valueOn, hF.fact n hn e he, Option.bind_some]
  exact h.value_leaving hF hg hE n hu

end Differs

theorem Wave.differs (h : Wave g F E' s v b w) : Differs g F v w.facts :=
  ⟨h.initial, fun e _ _ _ u => h.contains e u, fun e _ _ _ u => h.others e u⟩

namespace Wave

variable (hF : Settled g F E) (hg : g.Wired) (hE : Rises g E E' s v a b)
  (h : Wave g F E' s v b w)
include hF hg hE h

/-- Where the fact due on an edge gives the variable the value that it has there, it is the fact
    that the edge holds. -/
theorem get_eq {e : EdgeId} (hn : n ∈ g.order) (he : e ∈ g.outEdges.get n)
    (hv : valueOn w.facts v e = (E' n).after v ((w.facts.joinIncoming g n).value v)) :
    w.facts.get e = some ((E' n).apply (w.facts.joinIncoming g n)) := by
  have hcontains := h.contains e
  have hothers := h.others e
  cases hk : w.facts.get e with
  | none =>
    have := h.differs.contains_due hF hg hE hn he v
    rw [← hcontains, hk] at this
    cases this
  | some k =>
    refine congrArg some (Known.ext_answers (fun u => ?_) fun u => ?_)
    · have := h.differs.contains_due hF hg hE hn he u
      rw [← hcontains, hk] at this
      exact (Option.some.inj this).symm
    · by_cases hu : u = v
      · rw [hu, Effect.value_apply, ← hv, valueOn, hk]
        rfl
      · rw [h.differs.value_due hF hg hE hn he hu, ← hothers u hu, valueOn, hk]
        rfl

/-- What a visit changes: the new value comes where it was not, or another one goes. -/
theorem changes {oracle : Oracle} {rest : List NodeId} (hn : n ∈ g.order)
    (hv : Worklist.Visited (analysis oracle).toAnalysis g (fun n _ => (E' n).apply) n rest w w')
    (e : EdgeId) : w'.facts.get e = w.facts.get e ∨ e ∈ g.outEdges.get n ∧
      valueOn w.facts v e ≠ b ∧ (valueOn w'.facts v e = b ∨
        valueOn w'.facts v e = none ∧ valueOn w.facts v e ≠ none) := by
  have hfacts := hv.facts e
  change w'.facts.get e = if e ∈ g.outEdges.get n then
    some ((E' n).apply (w.facts.joinIncoming g n)) else _ at hfacts
  split at hfacts
  · next he =>
    by_cases hsame : valueOn w.facts v e = (E' n).after v ((w.facts.joinIncoming g n).value v)
    · exact .inl (hfacts.trans (h.get_eq hF hg hE hn he hsame).symm)
    right
    refine ⟨he, ?_⟩
    have hnew : valueOn w'.facts v e = (E' n).after v ((w.facts.joinIncoming g n).value v) := by
      rw [valueOn, hfacts, Option.bind_some, Effect.value_apply]
    obtain hid | ⟨y, hconst, _⟩ := (E' n).after_cases v
    · rw [hnew, hid, id]
      rw [hid, id] at hsame
      cases hz : (w.facts.joinIncoming g n).value v with
      | some y =>
        rw [hz] at hsame
        by_cases hy : some y = b
        · exact ⟨hy ▸ hsame, .inl hy⟩
        · exact absurd (h.passed n hn hid y hz hy e he) hsame
      | none =>
        rw [hz] at hsame
        refine ⟨fun hb => ?_, .inr ⟨rfl, hsame⟩⟩
        have hcarried := (h.carried (hb ▸ hsame) n hn (hE.ne_source hid) e he hb).2
        exact hsame (hb.trans (hcarried.symm.trans hz))
    · rw [hconst] at hsame
      exact absurd (h.given n hn y hconst e he) hsame
  · exact .inl hfacts

section Visit

variable {oracle : Oracle} {rest : List NodeId} (hn : n ∈ g.order)
  (hv : Worklist.Visited (analysis oracle).toAnalysis g (fun n _ => (E' n).apply) n rest w w')
include hn hv

/-- A value other than the new one arrives where it arrived before the visit only. -/
theorem joinIncoming_of_value {m : NodeId} {y : ExprId} (hb : some y ≠ b)
    (hy : (w'.facts.joinIncoming g m).value v = some y)
    (hsome : ∀ e ∈ g.inEdges.get m, (w'.facts.get e).isSome) :
    w'.facts.joinIncoming g m = w.facts.joinIncoming g m := by
  refine FactMap.joined_congr hv.initial fun e he => ?_
  have hye := ((value_joined (hv.initial.trans h.initial) hsome).1 hy).2 e he
  rcases h.changes hF hg hE hn hv e with hsame | ⟨_, _, hnew | ⟨hnew, _⟩⟩
  · exact hsame
  · exact absurd (hye.symm.trans hnew) hb
  · cases hye.symm.trans hnew

/-- Where the new value arrived before a visit, it arrives after it. -/
theorem value_joinIncoming {m : NodeId} (hb : b ≠ none)
    (hm : (w.facts.joinIncoming g m).value v = b)
    (hsome : ∀ e ∈ g.inEdges.get m, (w'.facts.get e).isSome) :
    (w'.facts.joinIncoming g m).value v = b := by
  obtain ⟨x, rfl⟩ := Option.ne_none_iff_exists'.1 hb
  obtain ⟨hne, hall⟩ := (value_joined h.initial fun _ => h.differs.isSome hF hg).1 hm
  refine (value_joined (hv.initial.trans h.initial) hsome).2 ⟨hne, fun e he => ?_⟩
  rcases h.changes hF hg hE hn hv e with hsame | ⟨_, hold, _⟩
  · rw [valueOn, hsame]
    exact hall e he
  · exact absurd (hall e he) hold

/-- Every visit keeps the invariant. -/
theorem visit (hq : w.queue = n :: rest) : Wave g F E' s v b w' := by
  -- An edge that leaves the visited node holds what is due there.
  have hdue : ∀ {e}, e ∈ g.outEdges.get n →
      w'.facts.get e = some ((E' n).apply (w.facts.joinIncoming g n)) := hv.get_of_mem
  have hcontains : ∀ e u, (w'.facts.get e).map (HandleMap.contains · u) =
      (F.get e).map (HandleMap.contains · u) := by
    intro e u
    rcases h.changes hF hg hE hn hv e with hsame | ⟨he, _⟩
    · rw [hsame, h.contains]
    · rw [hdue he, Option.map_some]
      exact h.differs.contains_due hF hg hE hn he u
  have hsome : ∀ {m e}, e ∈ g.inEdges.get m → (w'.facts.get e).isSome := by
    intro m e he
    have := congrArg Option.isSome (hcontains e v)
    rw [Option.isSome_map, Option.isSome_map, hF.isSome_of_mem_inEdges hg he] at this
    exact this
  constructor
  case initial => exact hv.initial.trans h.initial
  case changed => exact hv.changed
  case queued => exact hv.queued hg hq h.queued
  case contains => exact hcontains
  case others =>
    intro e u hu
    rcases h.changes hF hg hE hn hv e with hsame | ⟨he, _⟩
    · rw [valueOn, hsame]
      exact h.others e u hu
    · rw [valueOn, hdue he, Option.bind_some, h.differs.value_due hF hg hE hn he hu]
  case settled => exact hv.settled hg.toIndexed hq h.settled
  case given =>
    intro m hm z hz e he
    by_cases hmn : m = n
    · subst hmn
      rw [valueOn, hdue he, Option.bind_some, Effect.value_apply, hz]
    · rw [valueOn, hv.get_of_ne hg.toIndexed hmn he]
      exact h.given m hm z hz e he
  case passed =>
    intro m hm hid y hy hb e he
    have hjoin := h.joinIncoming_of_value hF hg hE hn hv hb hy fun _ => hsome
    by_cases hmn : m = n
    · subst hmn
      rw [valueOn, hdue he, Option.bind_some, Effect.value_apply, hid, ← hjoin]
      exact hy
    · rw [valueOn, hv.get_of_ne hg.toIndexed hmn he]
      exact h.passed m hm hid y (hjoin ▸ hy) hb e he
  case carried =>
    intro hb m hm hms e he hval
    suffices (E' m).after v = id ∧ (w.facts.joinIncoming g m).value v = b from
      ⟨this.1, h.value_joinIncoming hF hg hE hn hv hb this.2 fun _ => hsome⟩
    by_cases hmn : m = n
    · subst hmn
      rw [valueOn, hdue he, Option.bind_some, Effect.value_apply] at hval
      obtain hid | ⟨y, hconst, hput⟩ := (E' m).after_cases v
      · rw [hid] at hval
        exact ⟨hid, hval⟩
      · rw [hconst] at hval
        subst hval
        exact absurd ((hE.same m hms).symm.trans (hput hb)) (hE.unique hb m hm hms)
    · rw [valueOn, hv.get_of_ne hg.toIndexed hmn he] at hval
      exact h.carried hb m hm hms e he hval
  case remains =>
    intro e y hy hb
    rcases h.changes hF hg hE hn hv e with hsame | ⟨_, _, hnew | ⟨hnew, _⟩⟩
    · rw [valueOn, hsame] at hy
      exact h.remains e y hy hb
    · exact absurd (hy.symm.trans hnew) hb
    · cases hy.symm.trans hnew

end Visit

/-- The rank of a fact that a visit changes gets lower. -/
theorem lowers {oracle : Oracle} {rest : List NodeId} (hn : n ∈ g.order)
    (hv : Worklist.Visited (analysis oracle).toAnalysis g (fun n _ => (E' n).apply) n rest w w')
    (e : EdgeId) : w'.facts.get e = w.facts.get e ∨ e.index < g.edges.size ∧
      waveRank v b (w'.facts.get e) < waveRank v b (w.facts.get e) := by
  refine (h.changes hF hg hE hn hv e).imp_right fun ⟨he, hold, hnew⟩ => ⟨?_, ?_⟩
  · obtain ⟨k, label, hedge⟩ := (hg.mem_outEdges n e).1 he
    exact Arena.get?_eq_some_lt hedge
  · simp only [valueOn] at hold hnew
    rw [waveRank, waveRank, if_neg hold]
    rcases hnew with hnew | ⟨hnew, hne⟩
    · rw [if_pos hnew]
      split <;> omega
    · rw [if_neg hne, if_pos hnew]
      split <;> omega

end Wave

section Start

variable {oracle : Oracle} (hF : Settled g F E) (hg : g.Wired)
  (hord : Direction.forward.Ordered g) (hE : Rises g E E' s v a b) (hs : s ∈ g.order)
include hF hg hord hE hs

omit hs in
/-- Before the wave, the new value is nowhere. -/
theorem Rises.valueOn_ne (hab : a ≠ b) (hb : b ≠ none) (hn : n ∈ g.order) {e : EdgeId}
    (he : e ∈ g.outEdges.get n) : valueOn F v e ≠ b := by
  intro hval
  obtain ⟨x, rfl⟩ := Option.ne_none_iff_exists'.1 hb
  have hput : ∀ m ∈ g.order, E m ≠ .put v (some x) := by
    intro m hm heq
    by_cases hms : m = s
    · rw [hms, hE.old] at heq
      cases heq
      exact hab rfl
    · exact hE.unique hb m hm hms heq
  rw [valueOn, hF.fact n hn e he, Option.bind_some, Effect.value_apply] at hval
  obtain hid | ⟨y, hconst, hy⟩ := (E n).after_cases v
  · rw [hid] at hval
    obtain ⟨m, hm, heq, _⟩ := hF.exists_put hg hord hn hval hval
    exact hput m hm heq
  · rw [hconst] at hval
    subst hval
    exact hput n hn (hy hb)

/-- The first visit starts the wave. -/
theorem Rises.wave (hab : a ≠ b) {w : Worklist Known} (hw : w.facts = F) (hq : w.queue = [s])
    (hv : Worklist.Visited (analysis oracle).toAnalysis g (fun n _ => (E' n).apply) s [] w w') :
    Wave g F E' s v b w' := by
  subst hw
  have hdue : ∀ {e}, e ∈ g.outEdges.get s →
      w'.facts.get e = some ((E' s).apply (w.facts.joinIncoming g s)) := hv.get_of_mem
  -- An edge leaves the source of the wave, or it holds what it held before.
  have hedge : ∀ e, e ∈ g.outEdges.get s ∨ w'.facts.get e = w.facts.get e := by
    intro e
    by_cases he : e ∈ g.outEdges.get s
    · exact .inl he
    · exact .inr ((hv.facts e).trans (if_neg he))
  constructor
  case initial => exact hv.initial.trans hF.initial
  case changed => exact hv.changed
  case queued =>
    refine hv.queued hg hq fun n hn => ?_
    rw [hq, List.mem_singleton] at hn
    exact hn ▸ hs
  case contains =>
    intro e u
    rcases hedge e with he | hsame
    · rw [hdue he, hF.fact s hs e he, Option.map_some, Option.map_some, Effect.contains_apply,
        Effect.contains_apply, hE.names_eq]
    · rw [hsame]
  case others =>
    intro e u hu
    rcases hedge e with he | hsame
    · rw [valueOn, valueOn, hdue he, hF.fact s hs e he, Option.bind_some, Option.bind_some,
        Effect.value_apply, Effect.value_apply, hE.after_eq s hu]
    · rw [valueOn, valueOn, hsame]
  case settled =>
    refine hv.settled hg.toIndexed hq fun n hn hnot e he => ?_
    rw [hq, List.mem_singleton] at hnot
    refine (hF.fact n hn e he).trans ?_
    rw [← hE.same n hnot]
    rfl
  case given =>
    intro m hm z hz e he
    by_cases hms : m = s
    · subst hms
      rw [valueOn, hdue he, Option.bind_some, Effect.value_apply, hz]
    · rw [valueOn, hv.get_of_ne hg.toIndexed hms he, hF.fact m hm e he, Option.bind_some, Effect.value_apply,
        ← hE.same m hms, hz]
  case passed =>
    intro m hm hid y hy hb e he
    have hsome : ∀ d ∈ g.inEdges.get m, (w'.facts.get d).isSome := by
      intro d hd
      rcases hedge d with hds | hsame
      · rw [hdue hds]
        rfl
      · rw [hsame]
        exact hF.isSome_of_mem_inEdges hg hd
    have hall := ((value_joined (hv.initial.trans hF.initial) hsome).1 hy).2
    have hjoin : w'.facts.joinIncoming g m = w.facts.joinIncoming g m := by
      refine FactMap.joined_congr hv.initial fun d hd => (hedge d).resolve_left fun hds => hb ?_
      have := hall d hd
      rw [valueOn, hdue hds, Option.bind_some, Effect.value_apply, hE.after_source] at this
      exact this.symm
    have hms := hE.ne_source hid
    rw [valueOn, hv.get_of_ne hg.toIndexed hms he, hF.fact m hm e he, Option.bind_some, Effect.value_apply,
      ← hE.same m hms, hid, ← hjoin]
    exact hy
  case carried =>
    intro hb m hm hms e he hval
    rw [valueOn, hv.get_of_ne hg.toIndexed hms he] at hval
    exact absurd hval (hE.valueOn_ne hF hg hord hab hb hm he)
  case remains =>
    intro e y hy hb
    rcases hedge e with he | hsame
    · rw [valueOn, hdue he, Option.bind_some, Effect.value_apply, hE.after_source] at hy
      exact absurd hy.symm hb
    · rwa [valueOn, hsame] at hy

/-- A wave ends with settled facts. -/
theorem Rises.exists_run (hab : a ≠ b) (hfollows : ∀ n ∈ g.order, HasEffect oracle p g n (E' n)) :
    ∃ w' bound w'', Worklist.visit (analysis oracle).toAnalysis g p s []
        { facts := F, queue := [s] } = .ok w' ∧
      Worklist.run (analysis oracle).toAnalysis g p bound { w' with updates := 0 } = .ok w'' ∧
      Settled g w''.facts E' := by
  have hfollows := analysis_follows hfollows
  obtain ⟨w', hvisit, hv⟩ := Worklist.visit_follows hg.toIndexed hfollows hs []
    (show FactMap.changed (Worklist.facts { facts := F, queue := [s] }) = [] from hF.changed)
  have hwave := hE.wave hF hg hord hs hab rfl rfl hv
  have hstart : Wave g F E' s v b { w' with updates := 0 } := by
    obtain ⟨h₁, h₂, h₃, h₄, h₅, h₆, h₇, h₈, h₉, h₁₀⟩ := hwave
    exact ⟨h₁, h₂, h₃, h₄, h₅, h₆, h₇, h₈, h₉, h₁₀⟩
  obtain ⟨bound, w'', hrun, hend, hnil⟩ :=
    Worklist.exists_run_of_lowers (waveRank v b) g.edges.size
      (fun w n rest hw hq => by
        have hn := hw.queued n (hq ▸ List.mem_cons_self)
        obtain ⟨w₂, hvisit₂, hv₂⟩ := Worklist.visit_follows hg.toIndexed hfollows hn rest hw.changed
        refine ⟨w₂, hvisit₂, hw.visit hF hg hE hn hv₂ hq, hw.lowers hF hg hE hn hv₂, fun hsame => ?_⟩
        refine hv₂.same fun e he hne => absurd ?_ hne
        rw [← hsame e, hv₂.get_of_mem he])
      hstart
  refine ⟨w', bound, w'', hvisit, hrun, hend.initial, hend.changed, fun n hn e he => ?_⟩
  exact hend.settled n hn (by rw [hnil]; exact List.not_mem_nil) e he

end Start

end Inlining

end Dataflow
