import Dataflow.Proofs.Optimization
import Dataflow.Proofs.Paths
import Dataflow.Proofs.Variants

/-!
# Inlining keeps the meaning of a program

A program before and after inlining gives the same outcome for every method and all arguments: the
same value is returned and the same calls with side effects are made, in the same order. This is
for tree programs that assign to variables only, as the evaluator gives no other assignment a
meaning.

A rewrite changes the body that is swept in one place. There the value that is put in was known,
and a known value is the value of the variable (`Proposal.setting`). Other bodies do not have the
place in them.

* `SameRuns`: two programs have the same runs;
* `Proposal.sameRuns`: the programs before and after a rewrite;
* `Program.exists_evaluate_iff`: what a method gives, from the runs of its body;
* `optimize_evaluate_iff`: the programs before and after inlining in all bodies.
-/

namespace Dataflow

variable {p q : Program} {ls : List StmtId} {le : List ExprId} {r c a : ExprId}
  {la lc : List ExprId}

/-! ### Everything inside the bodies -/

namespace Program

/-- The expressions inside the bodies are those that are listed. -/
theorem Lists.mem_iff (h : p.Lists ls le) {e : ExprId} :
    e ∈ le ↔ ∃ b ∈ p.bodies.map Prod.snd, p.Inside (.stmt b) (.expr e) := by
  constructor
  · intro he
    obtain ⟨s, hs, st, own, hst, how, hmem, _⟩ := h.spans.exists_own he
    obtain ⟨b, hb, hin⟩ := h.spans.exists_inside hs
    obtain ⟨o, ho, hin'⟩ := how.exists_inside hmem
    exact ⟨b, hb, (hin.expr hst ho).trans hin'⟩
  · rintro ⟨b, hb, hin⟩
    exact hin.listed h.spans (h.spans.mem_of_mem_roots hb)

/-- Every assignment inside a body is to a variable. -/
def AllAssignVariables (p : Program) : Prop := ∀ b ∈ p.bodies.map Prod.snd, p.AssignsVariables b

theorem Lists.allAssignVariables_iff (h : p.Lists ls le) : p.AllAssignVariables ↔
    ∀ e ∈ le, ∀ x, p.exprs.get? e = some x → ∀ t ∈ x.targets, ∃ v, p.exprs.get? t = some (.var v) := by
  constructor
  · intro hvars e he x hx
    obtain ⟨b, hb, hin⟩ := h.mem_iff.1 he
    exact hvars b hb e x hin hx
  · intro hvars b hb e x hin hx
    exact hvars e (h.mem_iff.2 ⟨b, hb, hin⟩) x hx

/-- Assignments are to variables after an edit too: none is to the place that was replaced. -/
theorem Edited.allAssignVariables (h : p.Edited q r c a ls le la lc) (hl : p.Lists ls le)
    (hinert : p.Inert la) (hr : ∀ e ∈ le, ∀ x, p.exprs.get? e = some x → r ∉ x.targets)
    (hvars : p.AllAssignVariables) : q.AllAssignVariables := by
  rw [hl.allAssignVariables_iff] at hvars
  rw [(h.lists hl).allAssignVariables_iff]
  intro e he y hy t ht
  rcases mem_flatMap_inPlaceOf.1 he with ⟨_, he⟩ | ⟨he, her⟩
  · rw [Expr.targets_of_inert (h.inert hinert e he y hy).1] at ht
    cases ht
  · rw [h.expr e he] at hy
    obtain ⟨x, hx, rfl⟩ := Option.map_eq_some_iff.1 hy
    rw [Expr.targets_redirect, map_redirect_of_not_mem (hr e he x hx)] at ht
    obtain ⟨v, hv⟩ := hvars e he x hx t ht
    have htle := hl.spans.mem_of_mem_operands he hx (Expr.mem_operands_of_mem_targets ht)
    exact ⟨v, by rw [h.expr t htle, hv]; rfl⟩

/-- Different bodies have nothing in common. -/
theorem exists_disjoint_spans {ss : List StmtId} {b b' : StmtId} (h : StmtSpans p ss ls le)
    (hle : le.Nodup) (hb : b ∈ ss) (hb' : b' ∈ ss) (hne : b ≠ b') :
    ∃ l₁ e₁ l₂ e₂, StmtSpans p [b] l₁ e₁ ∧ StmtSpans p [b'] l₂ e₂ ∧ l₂.Sublist ls ∧ e₂.Sublist le ∧
      e₁.Disjoint e₂ := by
  induction ss generalizing ls le with
  | nil => cases hb
  | cons s ss ih =>
    obtain ⟨l₁, e₁, l₂, e₂, hfirst, hrest, rfl, rfl⟩ := h.of_cons
    have hdisjoint := List.disjoint_of_nodup_append hle
    rcases List.mem_cons.1 hb with rfl | hrb
    · have hrb' := (List.mem_cons.1 hb').resolve_left (Ne.symm hne)
      obtain ⟨l, e, hspans, hl, he⟩ := hrest.exists_stmtSpans (hrest.mem_of_mem_roots hrb')
      exact ⟨l₁, e₁, l, e, hfirst, hspans, hl.trans (List.sublist_append_right _ _),
        he.trans (List.sublist_append_right _ _), fun o ho ho' => hdisjoint ho (he.subset ho')⟩
    · rcases List.mem_cons.1 hb' with rfl | hrb'
      · obtain ⟨l, e, hspans, _, he⟩ := hrest.exists_stmtSpans (hrest.mem_of_mem_roots hrb)
        exact ⟨l, e, l₁, e₁, hspans, hfirst, List.sublist_append_left _ _,
          List.sublist_append_left _ _, fun o ho ho' => hdisjoint ho' (he.subset ho)⟩
      · obtain ⟨l, e, l', e', hspans, hspans', hl, he, hapart⟩ :=
          ih hrest (List.nodup_append.1 hle).2.1 hrb hrb'
        exact ⟨l, e, l', e', hspans, hspans', hl.trans (List.sublist_append_right _ _),
          he.trans (List.sublist_append_right _ _), hapart⟩

end Program

/-- An expression that is read by a node of a graph is in the body that the graph follows. -/
theorem Graph.LaidOut.mem_of_read {g : Graph} {body : StmtId} {n : NodeId} {parent : Option NodeId}
    {v : VarId} (h : g.LaidOut p body) (hspans : StmtSpans p [body] ls le) (hn : n ∈ g.order)
    (hnode : g.nodes.get? n = some ⟨.read v, .expr r, parent⟩) : r ∈ le := by
  obtain ⟨ns, last, outs, ends, horder, hlaid, hlast⟩ := h
  rw [horder] at hn
  rcases List.mem_append.1 hn with hn | hn
  · have hmark : r ∈ g.marks Node.read? ns :=
      List.mem_filterMap.2 ⟨n, hn, by rw [hnode]; rfl⟩
    have hcount := (marks_read p r).laid hlaid hspans
    exact List.count_pos_iff.1 (Nat.lt_of_lt_of_le (List.count_pos_iff.2 hmark) hcount)
  · rw [List.mem_singleton.1 hn, hlast.node] at hnode
    cases hnode

/-! ### The same runs -/

/-- The bodies of two programs have the same runs, in which all tests go the same way. -/
structure SameRuns (p q : Program) : Prop where
  methods : q.methods = p.methods
  runs : ∀ b ∈ p.bodies.map Prod.snd, ∀ m went d m',
    (∃ events, Runs p (.stmt b) m events d m' ∧ tests events = went) ↔
      ∃ events, Runs q (.stmt b) m events d m' ∧ tests events = went

theorem SameRuns.refl (p : Program) : SameRuns p p where
  methods := rfl
  runs _ _ _ _ _ _ := Iff.rfl

theorem SameRuns.trans {p' : Program} (h : SameRuns p q) (h' : SameRuns q p') : SameRuns p p' where
  methods := h'.methods.trans h.methods
  runs b hb m went d m' := by
    refine (h.runs b hb m went d m').trans (h'.runs b ?_ m went d m')
    rw [Program.bodies, h.methods]
    exact hb

/-- Two programs have the same variables, the same methods and the same pieces of some lists. -/
structure Program.SameOn (p q : Program) (ls : List StmtId) (le : List ExprId) : Prop where
  vars : q.vars = p.vars
  methods : q.methods = p.methods
  exprs_size : p.exprs.size ≤ q.exprs.size
  stmt : ∀ s ∈ ls, q.stmts.get? s = p.stmts.get? s
  expr : ∀ e ∈ le, q.exprs.get? e = p.exprs.get? e

/-- Statements without the place that was replaced are the same. -/
theorem Program.Edited.sameOn (h : p.Edited q r c a ls le la lc) {ss l : List StmtId}
    {e : List ExprId} (hspans : StmtSpans p ss l e) (hl : l.Sublist ls) (he : e.Sublist le)
    (hr : r ∉ e) : p.SameOn q l e where
  vars := h.vars
  methods := h.methods
  exprs_size := h.exprs_size
  stmt t ht := by
    obtain ⟨st, hst⟩ := Arena.exists_get?_of_lt (hspans.stmt_index_lt ht)
    rw [h.stmt t (hl.subset ht), hst, Option.map_some,
      Stmt.redirect_of_not_mem fun hmem => hr (hspans.mem_of_mem_exprs ht hst hmem)]
  expr o ho := by
    obtain ⟨l', hspans', hsub⟩ := hspans.exists_spans ho
    exact h.variant.exprs_eq hspans' (hsub.trans he).subset (fun hmem => hr (hsub.subset hmem)) o
      (hspans'.mem_of_mem_roots (List.mem_singleton_self o))

/-- The same statements run in the same way. -/
theorem Program.SameOn.exists_runs_iff {ss l : List StmtId} {e : List ExprId} (h : p.SameOn q l e)
    (hspans : StmtSpans p ss l e) {b : StmtId} (hb : b ∈ l) {m m' : Memory} {went : List Bool}
    {d : Completion} : (∃ events, Runs p (.stmt b) m events d m' ∧ tests events = went) ↔
      ∃ events, Runs q (.stmt b) m events d m' ∧ tests events = went := by
  refine exists_congr fun events => and_congr_left fun _ => ⟨fun hrun => ?_, fun hrun => ?_⟩
  · exact hrun.congr hspans h.stmt h.expr h.methods hb
  · exact hrun.congr (hspans.congr h.stmt h.expr) (fun t ht => (h.stmt t ht).symm)
      (fun o ho => (h.expr o ho).symm) h.methods.symm hb

namespace Inlining

/-! ### One rewrite -/

namespace Proposal

variable {g₀ g' : Graph} {body : StmtId} {s : Sweep Known} {ahead : List NodeId} {n : NodeId}
  {parent : Option NodeId} {v : VarId} {x : ExprId} {E : NodeId → Effect} {oc : List Operation}
  (h : Proposal g₀ body s ahead n parent v r x E ls le la) (hs : Sound g₀ body s)
include h hs

/-- What is known where a node is entered is known after all nodes before it. -/
theorem knownAt {k : NodeId} (hx : (s.facts.joinIncoming s.graph k).value v = some x) :
    KnownAt s.graph (fun m => (leaving s.graph s.facts E m).value v = some x) k := by
  have hwired := hs.linked.toWired
  have hin := ((value_joined h.settled.initial fun _ => h.settled.isSome_of_mem_inEdges hwired).1 hx).1
  exact ⟨mt hwired.arrivals_eq_nil_iff.1 hin, fun a ha => h.settled.value_leaving hwired hx ha⟩

/-- After a node the value is known if the node keeps it, or if it writes it. -/
theorem leaving_cases {k : NodeId} {node : Node} (hk : k ∈ s.graph.order)
    (hnode : s.graph.nodes.get? k = some node)
    (hknown : (leaving s.graph s.facts E k).value v = some x) :
    effect .declared s.program node.kind = .ok .keep ∧
        (s.facts.joinIncoming s.graph k).value v = some x ∨ node.kind = .write v x := by
  have hp := hs.tree.inRange
  -- Effects other than puts are those of the nodes: the facts are only behind on a write.
  have hreal : (∀ u value, E k ≠ .put u value) → HasEffect .declared s.program s.graph k (E k) := by
    intro hput
    refine (h.effects k hk).resolve_right fun haw => ?_
    obtain ⟨u, old, _, hold, _⟩ := haw.exists_hasEffect hp h.lists h.body_mem hs.laidOut hk
    exact hput u old hold
  rw [leaving, Effect.value_apply] at hknown
  cases hE : E k with
  | keep =>
    obtain ⟨node', hnode', heffect⟩ := hreal (by simp [hE])
    cases hnode.symm.trans hnode'
    rw [hE] at hknown heffect
    exact .inl ⟨heffect, hknown⟩
  | forget =>
    rw [hE] at hknown
    cases hknown
  | put u value =>
    rw [hE, Effect.after] at hknown
    split at hknown
    · next huv =>
      subst huv hknown
      have hne : k ≠ n := by
        rintro rfl
        cases h.keep.symm.trans hE
      -- The write is not one still to come, as its value would not be seen where it is proposed.
      have heffect : HasEffect .declared s.program s.graph k (.put u (some x)) :=
        hE ▸ (h.effects k hk).resolve_right fun haw => (haw.cons_cases hne).2.2 u x hE h.known
      obtain ⟨_, node', y, l, hnode', hkind, _, _, hy⟩ :=
        heffect.of_put hp h.lists h.body_mem hs.laidOut hk
      cases hnode.symm.trans hnode'
      rcases hy with ⟨hy, _⟩ | ⟨hy, _⟩
      · cases hy
        exact .inr hkind
      · cases hy
    · cases hknown
  | spare u =>
    rw [hE, Effect.after] at hknown
    split at hknown
    · next huv =>
      -- Only variables that are not tracked are spared.
      subst huv
      have heffect := hreal (by simp [hE])
      rw [hE] at heffect
      rcases heffect.cases with ⟨hf, _⟩ | ⟨_, ⟨hf, _⟩ | ⟨_, _, hf, _⟩ | ⟨_, hf, huntracked, _⟩⟩ <;> cases hf
      cases h.tracked.symm.trans huntracked
    · cases hknown

/-- Where a rewrite is proposed, the variable holds the value that is known. -/
theorem setting (hvar : s.program.exprs.get? r = some (.var v))
    (hr : ∀ e ∈ le, ∀ y, s.program.exprs.get? e = some y → r ∉ y.targets)
    (hvars : s.program.AllAssignVariables) :
    Setting s.program s.graph v r x ls le la
      (fun m => (leaving s.graph s.facts E m).value v = some x) where
  inRange := hs.tree.inRange
  stmts := ⟨_, h.lists.spans⟩
  assigns e he y hy := by
    refine ⟨hr e he y hy, fun t ht => ⟨?_, h.lists.allAssignVariables_iff.1 hvars e he y hy t ht⟩⟩
    exact h.lists.spans.mem_of_mem_operands he hy (Expr.mem_operands_of_mem_targets ht)
  spans := h.spans
  subset _ he := h.sublist.subset he
  inert := h.inert
  avoids := h.avoids
  var := hvar
  step k hk node hnode hknown :=
    (h.leaving_cases hs hk hnode hknown).imp_left fun ⟨heffect, hx⟩ => ⟨heffect, h.knownAt hs hx⟩
  place k hk parent' hnode := by
    have halone := hs.laidOut.readsAlone h.lists h.body_mem h.mem h.node
    rw [halone.unique k hk v parent' hnode]
    exact h.knownAt hs h.known

/-- A rewrite leaves all other bodies alone. -/
theorem exists_sameOn (hin : Inlined s.program q s.graph g' n parent v r c x ls le la lc oc)
    (hbody : body ∈ s.program.bodies.map Prod.snd) {b : StmtId}
    (hb : b ∈ s.program.bodies.map Prod.snd) (hne : body ≠ b) : ∃ l e,
      StmtSpans s.program [b] l e ∧ e.Nodup ∧ s.program.SameOn q l e := by
  obtain ⟨l₁, e₁, l₂, e₂, hspans₁, hspans₂, hl, he, hdisjoint⟩ :=
    Program.exists_disjoint_spans h.lists.spans h.lists.exprs_nodup hbody hb hne
  exact ⟨l₂, e₂, hspans₂, h.lists.exprs_nodup.sublist he, hin.edited.sameOn hspans₂ hl he
    (hdisjoint (hs.laidOut.mem_of_read hspans₁ h.mem h.node))⟩

/-- The programs before and after a rewrite have the same runs. -/
theorem sameRuns (hin : Inlined s.program q s.graph g' n parent v r c x ls le la lc oc)
    (hvars : s.program.AllAssignVariables) (hbody : body ∈ s.program.bodies.map Prod.snd) :
    SameRuns s.program q where
  methods := hin.edited.methods
  runs b hb m went d m' := by
    by_cases hne : body = b
    · subst hne
      have hread : Fits s.program s.program v r r x ls le := {
        toVariant := .refl ..
        place := fun m _ => ⟨_, .one hin.var rfl .nil rfl⟩ }
      have hcopy : Fits s.program q v r c x ls le := {
        toVariant := hin.edited.variant
        place := fun m ⟨_, hm⟩ => hin.edited.copies.exists_computes hin.inert hin.edited.methods hm }
      exact (h.setting hs hin.var hin.not_target hvars).exists_runs_iff hs.laidOut h.body_mem hread hcopy
    · obtain ⟨l, e, hspans, _, hsame⟩ := h.exists_sameOn hs hin hbody hb hne
      exact hsame.exists_runs_iff hspans (hspans.mem_of_mem_roots (List.mem_singleton_self b))

end Proposal

/-! ### All rewrites -/

section Sweeps

variable {g₀ : Graph} {body : StmtId} {s s' : Sweep Known}

theorem Progresses.sameRuns (h : Progresses g₀ body s s') (hs : Sound g₀ body s)
    (hvars : s.program.AllAssignVariables) (hbody : body ∈ s.program.bodies.map Prod.snd) :
    SameRuns s.program s'.program ∧ s'.program.AllAssignVariables := by
  cases h.moves with
  | pass => exact ⟨.refl _, hvars⟩
  | replace _ hp hin =>
    exact ⟨hp.sameRuns hs hin hvars hbody,
      hin.edited.allAssignVariables hp.lists hin.inert hin.not_target hvars⟩

/-- Inlining in bodies keeps the runs of all bodies. -/
theorem sameRuns_of_optimizeMethods {ms : List MethodId} {options : Options} {fuel : Fuel}
    {changed : Bool} {o : Optimization} (hp : p.IsTree) (hvars : p.AllAssignVariables)
    (h : optimizeMethods .declared options ms p fuel changed = .ok o) : SameRuns p o.program := by
  refine (keeps_of_optimizeMethods (P := fun q => SameRuns p q ∧ q.AllAssignVariables)
    (fun hstep hs hbody hkept => ?_) hp ⟨.refl p, hvars⟩ h).1
  obtain ⟨hsame, hvars'⟩ := hstep.sameRuns hs hkept.2 hbody
  exact ⟨hkept.1.trans hsame, hvars'⟩

end Sweeps

end Inlining

/-! ### Outcomes of methods -/

/-- The value that a method returns if its body ends this way. -/
def Completion.value : Completion → Option Int64
  | normal => none
  | returned value => value

/-- The state in which the body of a method starts. -/
def Method.start (decl : Method) (args : List Int64) : Memory :=
  (Program.enterMethod decl args 0).memory

/-- A method gives what its body leaves, if that comes to its end. -/
theorem Program.evaluate_eq_some_iff {m : MethodId} {args : List Int64} {fuel : Nat} {o : Outcome} :
    p.evaluate m args fuel = .ok (some o) ↔
      ∃ decl body d m', p.methods.get? m = some decl ∧ decl.body = some body ∧
        (p.evalStmt body).Gives ((decl.start args).withFuel fuel) d m' ∧
        o = ⟨d.value, m'.effects.toList⟩ := by
  constructor
  · intro h
    obtain ⟨decl, hdecl, h⟩ := Run.bind_eq_ok.1 h
    cases hbody : decl.body with
    | none =>
      simp only [hbody] at h
      cases h
    | some body =>
      simp only [hbody] at h
      obtain ⟨⟨result, s⟩, hrun, h⟩ := Run.bind_eq_ok.1 h
      cases result with
      | error halt => cases h
      | ok d =>
        cases h
        refine ⟨decl, body, d, s, Arena.get_eq_ok_iff.1 hdecl, hbody, hrun, ?_⟩
        cases d <;> rfl
  · rintro ⟨decl, body, d, m', hdecl, hbody, hrun, rfl⟩
    refine Run.bind_eq_ok.2 ⟨decl, Arena.get_eq_ok_iff.2 hdecl, ?_⟩
    simp only [hbody]
    refine Run.bind_eq_ok.2 ⟨_, hrun, ?_⟩
    cases d <;> rfl

/-- With enough fuel, a method gives what the run of its body leaves. -/
theorem Program.exists_evaluate_iff {m : MethodId} {args : List Int64} {o : Outcome} :
    (∃ fuel, p.evaluate m args fuel = .ok (some o)) ↔
      ∃ decl body d m', p.methods.get? m = some decl ∧ decl.body = some body ∧
        (∃ events, Runs p (.stmt body) (decl.start args) events d m') ∧
        o = ⟨d.value, m'.effects.toList⟩ := by
  simp only [evaluate_eq_some_iff]
  constructor
  · rintro ⟨fuel, decl, body, d, m', hdecl, hbody, hrun, ho⟩
    have hruns : ∃ events, Runs p (.stmt body) ((decl.start args).withFuel fuel).memory events d
      m'.memory := exists_runs hrun
    exact ⟨decl, body, d, m'.memory, hdecl, hbody, hruns, ho⟩
  · rintro ⟨decl, body, d, m', hdecl, hbody, ⟨events, hrun⟩, ho⟩
    obtain ⟨cost, hcost⟩ := hrun.exists_cost
    exact ⟨cost, decl, body, d, _, hdecl, hbody, hcost cost (Nat.le_refl _), ho⟩

/-- All fuels that are enough give the same outcome. -/
theorem Program.evaluate_unique {m : MethodId} {args : List Int64} {fuel fuel' : Nat} {o o' : Outcome}
    (h : p.evaluate m args fuel = .ok (some o)) (h' : p.evaluate m args fuel' = .ok (some o')) :
    o' = o := by
  obtain ⟨decl, body, d, n, hdecl, hbody, ⟨_, hrun⟩, rfl⟩ := exists_evaluate_iff.1 ⟨fuel, h⟩
  obtain ⟨decl', body', d', n', hdecl', hbody', ⟨_, hrun'⟩, rfl⟩ := exists_evaluate_iff.1 ⟨fuel', h'⟩
  cases hdecl.symm.trans hdecl'
  cases hbody.symm.trans hbody'
  obtain ⟨_, rfl, rfl⟩ := hrun.unique hrun'
  rfl

theorem Program.body_mem {m : MethodId} {decl : Method} {body : StmtId}
    (hdecl : p.methods.get? m = some decl) (hbody : decl.body = some body) :
    body ∈ p.bodies.map Prod.snd := by
  refine List.mem_map_of_mem (f := Prod.snd) (a := (m, body)) (mem_bodies_iff.2 ?_)
  rw [hdecl, Option.bind_some, hbody]

theorem SameRuns.exists_runs_iff (h : SameRuns p q) {b : StmtId} (hb : b ∈ p.bodies.map Prod.snd)
    {m m' : Memory} {d : Completion} :
    (∃ events, Runs p (.stmt b) m events d m') ↔ ∃ events, Runs q (.stmt b) m events d m' := by
  constructor
  · rintro ⟨events, hrun⟩
    obtain ⟨events', hrun', _⟩ := (h.runs b hb m _ d m').1 ⟨events, hrun, rfl⟩
    exact ⟨events', hrun'⟩
  · rintro ⟨events, hrun⟩
    obtain ⟨events', hrun', _⟩ := (h.runs b hb m _ d m').2 ⟨events, hrun, rfl⟩
    exact ⟨events', hrun'⟩

theorem SameRuns.exists_evaluate_iff (h : SameRuns p q) {m : MethodId} {args : List Int64}
    {o : Outcome} : (∃ fuel, p.evaluate m args fuel = .ok (some o)) ↔
      ∃ fuel, q.evaluate m args fuel = .ok (some o) := by
  rw [Program.exists_evaluate_iff, Program.exists_evaluate_iff, h.methods]
  refine exists_congr fun decl => exists_congr fun body => exists_congr fun d =>
    exists_congr fun m' => and_congr_right fun hdecl => and_congr_right fun hbody =>
    and_congr_left fun _ => h.exists_runs_iff (Program.body_mem hdecl hbody)

/-- A tree program that assigns to variables only gives the same outcomes before and after inlining:
    each method, with any arguments, returns the same value and makes the same calls. -/
theorem Inlining.optimize_evaluate_iff {p : Program} (hp : p.IsTree)
    (hvars : ∀ method body, (method, body) ∈ p.bodies → p.AssignsVariables body)
    {options : Options} {fuel : Fuel} {o : Optimization}
    (ho : optimize .declared options fuel p = .ok o) (m : MethodId) (args : List Int64)
    (outcome : Outcome) :
    (∃ fuel, p.evaluate m args fuel = .ok (some outcome)) ↔
      ∃ fuel, o.program.evaluate m args fuel = .ok (some outcome) := by
  have hall : p.AllAssignVariables := by
    intro b hb
    obtain ⟨⟨method, body⟩, hbody, rfl⟩ := List.mem_map.1 hb
    exact hvars method body hbody
  exact (sameRuns_of_optimizeMethods hp hall ho).exists_evaluate_iff

/-- A method that stores the successor of its argument, hands it to a method with side effects and
    returns it. -/
def sampleLog : Program where
  vars := ⟨#[{ name := "n", type := .int, kind := .ofMethod },
    { name := "j", type := .int, kind := .ofMethod }]⟩
  methods := ⟨#[{ name := "log", returns := .int, params := [], isPure := false, body := none },
    { name := "next", returns := .int, params := [⟨0⟩], isPure := false, body := some ⟨3⟩ }]⟩
  exprs := ⟨#[.var ⟨0⟩, .int 1, .binary .add ⟨0⟩ ⟨1⟩, .var ⟨1⟩, .assign ⟨3⟩ ⟨2⟩, .var ⟨1⟩,
    .call ⟨0⟩ none [⟨5⟩], .var ⟨1⟩]⟩
  stmts := ⟨#[.expr ⟨4⟩, .expr ⟨6⟩, .ret (some ⟨7⟩), .block [⟨0⟩, ⟨1⟩, ⟨2⟩]]⟩

/-- The sum is put in the call, and what is seen of a run stays the same. -/
theorem Inlining.optimize_evaluate_iff_log : sampleLog.IsTree ∧
    (∀ method body, (method, body) ∈ sampleLog.bodies → sampleLog.AssignsVariables body) ∧
    ∃ o, optimize .declared { bound := 50 } Fuel.infinite sampleLog = .ok o ∧
      o.outcome = .ok true ∧ sampleLog.evaluate ⟨1⟩ [4] 20 = .ok (some ⟨some 5, [5]⟩) ∧
      ∃ fuel, o.program.evaluate ⟨1⟩ [4] fuel = .ok (some ⟨some 5, [5]⟩) := by
  have htree : sampleLog.IsTree :=
    Program.isTree_of_check (show sampleLog.checksAsTree 20 = true by decide)
  have hvars : ∀ method body, (method, body) ∈ sampleLog.bodies →
      sampleLog.AssignsVariables body := by
    intro method body _ e x _ hx t ht
    have htargets : ∀ x ∈ sampleLog.exprs.items.toList, ∀ t ∈ x.targets, t = ⟨3⟩ := by decide
    rw [htargets x (Array.mem_toList_iff.2 (Array.mem_of_getElem? hx)) t ht]
    exact ⟨⟨1⟩, rfl⟩
  have houtcome : (optimize .declared { bound := 50 } Fuel.infinite sampleLog).map
      Optimization.outcome = .ok (.ok true) := by decide +kernel
  have heval : sampleLog.evaluate ⟨1⟩ [4] 20 = .ok (some ⟨some 5, [5]⟩) := by decide +kernel
  refine ⟨htree, hvars, ?_⟩
  cases ho : optimize .declared { bound := 50 } Fuel.infinite sampleLog with
  | error fault =>
    rw [ho] at houtcome
    cases houtcome
  | ok o =>
    rw [ho] at houtcome
    exact ⟨o, rfl, Except.ok.inj houtcome, heval,
      (optimize_evaluate_iff htree hvars ho ⟨1⟩ [4] ⟨some 5, [5]⟩).1 ⟨20, heval⟩⟩

end Dataflow
