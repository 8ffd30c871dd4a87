import Dataflow.Proofs.Paths
import Dataflow.Proofs.Replacements

/-!
# Inlining in one body, from start to end

The sweep of inlining over the graph of a body of a tree program. Each step that it takes goes past
a node or replaces one (`Moves`), keeps what holds of the sweep (`Sound.step`) and leaves less to
do: there are fewer reads of the original graph ahead, or as many and fewer nodes (`work`). So
the sweep ends (`Sound.exists_run`).

* `Sound.start`: where the sweep begins;
* `Sound.step`: a step of the sweep;
* `Sound.exists_run`: the whole sweep.
-/

namespace Dataflow

/-! ### Larger bounds -/

section Bounds

variable {A T : Type} {an : Analysis A} {b b' : Nat} {g : Graph} {p : Program}
  {m : FactMap A}

/-- What the solver comes to with some bound on its visits, it comes to with any larger one. -/
theorem Analysis.propagate_mono {seed : List NodeId} {x : Nat × FactMap A}
    (h : an.propagate b g p m seed = .ok x) (hb : b ≤ b') : an.propagate b' g p m seed = .ok x := by
  rw [propagate_eq, Run.bind_eq_ok] at h ⊢
  obtain ⟨w, hw, hx⟩ := h
  exact ⟨w, Worklist.run_mono hw hb, hx⟩

theorem Analysis.settle_mono {m' : FactMap A} (h : an.settle b g p m = .ok m') (hb : b ≤ b') :
    an.settle b' g p m = .ok m' := by
  rw [settle] at h ⊢
  split at h
  · next hempty =>
    rw [if_pos hempty]
    exact h
  · next hempty =>
    rw [if_neg hempty]
    obtain ⟨receivers, hreceivers, h⟩ := Run.bind_eq_ok.1 h
    obtain ⟨x, hx, h⟩ := Run.bind_eq_ok.1 h
    exact Run.bind_eq_ok.2 ⟨receivers, hreceivers,
      Run.bind_eq_ok.2 ⟨x, propagate_mono hx hb, h⟩⟩

theorem Analysis.solve_mono {m' : FactMap A} (h : an.solve b g p = .ok m') (hb : b ≤ b') :
    an.solve b' g p = .ok m' := by
  obtain ⟨x, hx, h⟩ := Run.bind_eq_ok.1 h
  exact Run.bind_eq_ok.2 ⟨x, propagate_mono hx hb, h⟩

/-- What solving finds with one bound is what it finds with all large ones. -/
theorem Analysis.solve_eq_of_large {m' m'' : FactMap A} {B : Nat} (h : an.solve b g p = .ok m')
    (hlarge : ∀ b ≥ B, an.solve b g p = .ok m'') : m' = m'' := by
  have heq := solve_mono h (Nat.le_max_left b B)
  rw [hlarge _ (Nat.le_max_right b B)] at heq
  exact (Except.ok.inj heq).symm

namespace Sweep

variable {s : Sweep A} {x : Progress (Sweep A)} {options : Options}

theorem pass_mono (h : s.pass an b m = .ok x) (hb : b ≤ b') : s.pass an b' m = .ok x := by
  obtain ⟨facts, hfacts, hx⟩ := Run.bind_eq_ok.1 h
  exact Run.bind_eq_ok.2 ⟨facts, Analysis.settle_mono hfacts hb, hx⟩

theorem replace_mono [Rewrite T] {place : Nat} {n : NodeId} {rewrite : T}
    (h : s.replace an options place n rewrite = .ok x) (hb : options.bound ≤ b') :
    s.replace an { options with bound := b' } place n rewrite = .ok x := by
  rw [replace, Run.bind_eq_ok] at h ⊢
  obtain ⟨attempt, hattempt, h⟩ := h
  refine ⟨attempt, hattempt, ?_⟩
  cases houtcome : attempt.outcome with
  | error e => simpa only [houtcome] using h
  | ok rewrite' =>
    simp only [houtcome, Run.bind_eq_ok] at h ⊢
    obtain ⟨fragment, hfragment, h⟩ := h
    refine ⟨fragment, hfragment, ?_⟩
    cases fragment with
    | error e => exact h
    | ok f =>
      cases hspliced : (attempt.graph.splice n f).1 with
      | error e => simpa only [hspliced] using h
      | ok inserted =>
        simp only [hspliced] at h ⊢
        split at h
        · exact h
        · obtain ⟨facts, hfacts, hx⟩ := Run.bind_eq_ok.1 h
          exact Run.bind_eq_ok.2 ⟨facts, Analysis.propagate_mono hfacts hb, hx⟩

/-- What a step comes to with some bound on the visits of the solver, it comes to with any larger
    one. -/
theorem step_mono [Rewrite T] {an : RewritingAnalysis A T} (h : s.step an options = .ok x)
    (hb : options.bound ≤ b') : s.step an { options with bound := b' } = .ok x := by
  rw [step] at h ⊢
  split at h
  · exact h
  · split at h
    · exact h
    · obtain ⟨⟨verdict, facts⟩, hverdict, h⟩ := Run.bind_eq_ok.1 h
      refine Run.bind_eq_ok.2 ⟨_, hverdict, ?_⟩
      cases verdict with
      | interpreted => exact pass_mono h hb
      | replace rewrite =>
        obtain ⟨⟨allowed, fuel⟩, hfuel, h⟩ := Run.bind_eq_ok.1 h
        refine Run.bind_eq_ok.2 ⟨_, hfuel, ?_⟩
        cases allowed with
        | true => exact replace_mono h hb
        | false =>
          obtain ⟨facts', hfacts', h⟩ := Run.bind_eq_ok.1 h
          exact Run.bind_eq_ok.2 ⟨facts', hfacts', pass_mono h hb⟩

/-- What a step comes to with one bound is what it comes to with all large ones. -/
theorem step_eq_of_large [Rewrite T] {an : RewritingAnalysis A T} {y : Progress (Sweep A)} {B : Nat}
    (h : s.step an options = .ok x)
    (hlarge : ∀ options : Options, B ≤ options.bound → s.step an options = .ok y) : y = x := by
  have heq := step_mono h (Nat.le_max_left options.bound B)
  rw [hlarge _ (Nat.le_max_right options.bound B)] at heq
  exact Except.ok.inj heq

/-- What a sweep comes to with some bounds, it comes to with any larger ones. -/
theorem run_mono [Rewrite T] {an : RewritingAnalysis A T} {steps steps' : Nat}
    {y : Except Error Unit × Sweep A} (h : run an options steps s = .ok y)
    (hb : options.bound ≤ b') (hsteps : steps ≤ steps') :
    run an { options with bound := b' } steps' s = .ok y := by
  induction steps generalizing s steps' with
  | zero => cases h
  | succ steps ih =>
    obtain ⟨steps', rfl⟩ := Nat.exists_eq_add_of_le' (Nat.le_of_add_left_le hsteps)
    rw [run] at h ⊢
    cases hstep : s.step an options with
    | error fault => simp [hstep] at h
    | ok progress =>
      rw [step_mono hstep hb]
      rw [hstep] at h
      cases progress with
      | done => exact h
      | failed e s' => exact h
      | next s' => exact ih h (Nat.le_of_succ_le_succ hsteps)

end Sweep

/-- What an integrated solve comes to with some bound, it comes to with any larger one. -/
theorem RewritingAnalysis.integrate_mono [Rewrite T] {an : RewritingAnalysis A T} {options : Options}
    {fuel : Fuel} {i : Integration} (h : an.integrate options fuel g p = .ok i)
    (hb : options.bound ≤ b') : an.integrate { options with bound := b' } fuel g p = .ok i := by
  obtain ⟨facts, hfacts, h⟩ := Run.bind_eq_ok.1 h
  obtain ⟨y, hy, h⟩ := Run.bind_eq_ok.1 h
  exact Run.bind_eq_ok.2 ⟨facts, Analysis.solve_mono hfacts hb,
    Run.bind_eq_ok.2 ⟨y, Sweep.run_mono hy hb hb, h⟩⟩

end Bounds

namespace Inlining

variable {g₀ : Graph} {body : StmtId} {s s' : Sweep Known} {p : Program} {g : Graph}
  {n : NodeId} {ahead : List NodeId}

/-! ### What the sweep does at a node -/

theorem propose_read {parent : Option NodeId} {v : VarId} {r : ExprId}
    (hnode : g.nodes.get? n = some ⟨.read v, .expr r, parent⟩) (k : Known) :
    propose n g k = .ok ((k.value v).map fun value => ({ read := r, value } : Substitute)) := by
  rw [propose, Arena.get_eq_ok_iff.2 hnode]
  rfl

/-- A rewrite is proposed where the value of the variable that a node reads is known, and nowhere
    else. -/
theorem propose_cases {node : Node} (hnode : g.nodes.get? n = some node) (k : Known) :
    propose n g k = .ok none ∨ ∃ v r x, node = ⟨.read v, .expr r, node.parent⟩ ∧
      k.value v = some x ∧ propose n g k = .ok (some { read := r, value := x }) := by
  obtain ⟨kind, origin, parent⟩ := node
  have hget := Arena.get_eq_ok_iff.2 hnode
  cases kind with
  | read v =>
    cases origin with
    | expr r =>
      have heq := propose_read hnode k
      cases hx : k.value v with
      | none => exact .inl (by rw [heq, hx]; rfl)
      | some x => exact .inr ⟨v, r, x, rfl, hx, by rw [heq, hx]; rfl⟩
    | _ => exact .inl (by rw [propose, hget]; rfl)
  | _ => exact .inl (by rw [propose, hget]; rfl)

theorem judge_interpreted {oracle : Oracle} {F m : FactMap Known}
    (hpropose : propose n g (F.joinIncoming g n) = .ok none)
    (hinterpret : (analysis oracle).interpret n g p F = .ok m) :
    (analysis oracle).judge n g p F = .ok (.interpreted, m) := by
  change (propose n g (F.joinIncoming g n) >>= _) = _
  rw [hpropose]
  change ((analysis oracle).interpret n g p F >>= _) = _
  rw [hinterpret]
  rfl

theorem judge_replace {oracle : Oracle} {F : FactMap Known} {rewrite : Substitute}
    (hpropose : propose n g (F.joinIncoming g n) = .ok (some rewrite)) :
    (analysis oracle).judge n g p F = .ok (.replace rewrite, F) := by
  change (propose n g (F.joinIncoming g n) >>= _) = _
  rw [hpropose]
  rfl

section Step

variable {oracle : Oracle} {options : Options} (hahead : s.graph.order.drop s.index = n :: ahead)
include hahead

theorem place_eq (oracle : Oracle) : s.place (analysis oracle).toAnalysis = some s.index ∧
    s.graph.order[s.index]? = some n := by
  have hn : s.graph.order[s.index]? = some n := by
    rw [← Nat.add_zero s.index, ← List.getElem?_drop, hahead]
    rfl
  exact ⟨if_pos (List.getElem?_eq_some_iff.1 hn).1, hn⟩

theorem step_interpreted {m F' : FactMap Known}
    (hjudge : (analysis oracle).judge n s.graph s.program s.facts = .ok (.interpreted, m))
    (hsettle : (analysis oracle).settle options.bound s.graph s.program m = .ok F') :
    s.step (analysis oracle) options = .ok (.next { s with facts := F', index := s.index + 1 }) := by
  obtain ⟨hplace, hn⟩ := place_eq hahead oracle
  simp only [Sweep.step, hplace, hn, hjudge, Sweep.pass, hsettle, bind, Except.bind]
  rfl

variable {rewrite : Substitute}
  (hpropose : propose n s.graph (s.facts.joinIncoming s.graph n) = .ok (some rewrite))
include hpropose

theorem step_overflow (hfuel : s.fuel.consume = .error .overflow) :
    s.step (analysis oracle) options = .error .overflow := by
  obtain ⟨hplace, hn⟩ := place_eq hahead oracle
  simp only [Sweep.step, hplace, hn, judge_replace hpropose, hfuel, bind, Except.bind]

theorem step_denied {fuel : Fuel} {m F' : FactMap Known}
    (hfuel : s.fuel.consume = .ok (false, fuel))
    (hinterpret : (analysis oracle).interpret n s.graph s.program s.facts = .ok m)
    (hsettle : (analysis oracle).settle options.bound s.graph s.program m = .ok F') :
    s.step (analysis oracle) options =
      .ok (.next { s with facts := F', index := s.index + 1, fuel }) := by
  obtain ⟨hplace, hn⟩ := place_eq hahead oracle
  simp only [Sweep.step, hplace, hn, judge_replace hpropose, hfuel, hinterpret, Sweep.pass, hsettle,
    bind, Except.bind, Bool.false_eq_true, if_false]
  rfl

theorem step_allowed {fuel : Fuel} (hfuel : s.fuel.consume = .ok (true, fuel)) :
    s.step (analysis oracle) options =
      Sweep.replace (analysis oracle).toAnalysis options { s with fuel } s.index n rewrite := by
  obtain ⟨hplace, hn⟩ := place_eq hahead oracle
  simp only [Sweep.step, hplace, hn, judge_replace hpropose, hfuel, bind, Except.bind, if_true]

end Step

theorem step_eq_done (oracle : Oracle) (options : Options) (h : s.graph.order.drop s.index = []) :
    s.step (analysis oracle) options = .ok .done := by
  have hplace : s.place (analysis oracle).toAnalysis = none :=
    if_neg (Nat.not_lt.2 (List.drop_eq_nil_iff.1 h))
  rw [Sweep.step]
  simp only [hplace]
  rfl

/-! ### One step -/

/-- A step of the sweep: past a node, or the rewrite of one. -/
inductive Moves (g₀ : Graph) (body : StmtId) : Sweep Known → Sweep Known → Prop
  | pass {s : Sweep Known} {n : NodeId} {ahead : List NodeId} (F' : FactMap Known) (fuel : Fuel) :
    s.graph.order.drop s.index = n :: ahead →
    Moves g₀ body s { s with facts := F', index := s.index + 1, fuel }
  | replace {s : Sweep Known} {ahead : List NodeId} {n : NodeId} {parent : Option NodeId}
      {v : VarId} {r x : ExprId} {E : NodeId → Effect} {ls : List StmtId} {le la : List ExprId}
      {q : Program} {g' : Graph} {c : ExprId} {lc : List ExprId} {oc : List Operation}
      {F' : FactMap Known} (fuel : Fuel) :
    Proposal g₀ body s ahead n parent v r x E ls le la →
    Inlined s.program q s.graph g' n parent v r c x ls le la lc oc →
    Carried s.graph s.facts E n (inserted s.graph parent c oc) g' F' →
    Moves g₀ body s { s with
      graph := g', program := q, facts := F', fuel, rewrites := s.rewrites + 1 }

/-- The reads of the original graph that are still ahead. -/
def readsAhead (g₀ : Graph) (s : Sweep Known) : Nat :=
  readCount s.graph g₀.nodes.size (s.graph.order.drop s.index)

/-- What is left to do: reads of the original graph, then nodes. -/
def work (g₀ : Graph) (s : Sweep Known) : Nat × Nat :=
  (readsAhead g₀ s, (s.graph.order.drop s.index).length)

/-- Asking for a unit of fuel counts one more, unless the count is at its end. -/
theorem consume_cases (fuel : Fuel) : fuel.consume = .error .overflow ∧ Fuel.endless ≤ fuel.consumed ∨
    ∃ allowed fuel', fuel.consume = .ok (allowed, fuel') ∧ fuel'.consumed = fuel.consumed + 1 := by
  rw [Fuel.consume]
  split
  · split
    · exact .inr ⟨_, _, rfl, rfl⟩
    · split
      · exact .inr ⟨_, _, rfl, rfl⟩
      · exact .inr ⟨_, _, rfl, rfl⟩
  · exact .inl ⟨rfl, Nat.not_lt.1 ‹_›⟩

/-- What one step keeps, and what it makes less. -/
structure Progresses (g₀ : Graph) (body : StmtId) (s s' : Sweep Known) : Prop where
  moves : Moves g₀ body s s'
  sound : Sound g₀ body s'
  work : Prod.Lex (· < ·) (· < ·) (work g₀ s') (work g₀ s)
  fuel : s'.fuel.consumed + readsAhead g₀ s' ≤ s.fuel.consumed + readsAhead g₀ s
  counted : s.fuel.consumed + s'.rewrites ≤ s'.fuel.consumed + s.rewrites

theorem Progresses.of_pass (hahead : s.graph.order.drop s.index = n :: ahead) {F' : FactMap Known} {fuel : Fuel}
    (hs' : Sound g₀ body { s with facts := F', index := s.index + 1, fuel })
    (hfuel : fuel.consumed + readCount s.graph g₀.nodes.size ahead ≤
      s.fuel.consumed + readCount s.graph g₀.nodes.size (n :: ahead))
    (hle : s.fuel.consumed ≤ fuel.consumed) :
    Progresses g₀ body s { s with facts := F', index := s.index + 1, fuel } where
  moves := .pass F' fuel hahead
  sound := hs'
  work := by
    rw [Inlining.work, Inlining.work, readsAhead, readsAhead, hahead, drop_succ_of_drop_eq hahead,
      readCount_cons, Prod.lex_def]
    have : readCount s.graph g₀.nodes.size ahead ≤ readCount s.graph g₀.nodes.size ahead +
        if readsEarly s.graph g₀.nodes.size n then 1 else 0 := Nat.le_add_right _ _
    rcases Nat.lt_or_eq_of_le this with hlt | heq
    · exact .inl hlt
    · exact .inr ⟨heq, Nat.lt_succ_self _⟩
  fuel := by
    rw [readsAhead, readsAhead, hahead, drop_succ_of_drop_eq hahead]
    exact hfuel
  counted := Nat.add_le_add_right hle _

theorem Progresses.of_replace {parent : Option NodeId} {v : VarId} {r x : ExprId}
    {E : NodeId → Effect} {ls : List StmtId} {le la : List ExprId} {q : Program} {g' : Graph}
    {c : ExprId} {lc : List ExprId} {oc : List Operation} {F' : FactMap Known} {fuel : Fuel}
    (h : Proposal g₀ body s ahead n parent v r x E ls le la) (hs : Sound g₀ body s)
    (hin : Inlined s.program q s.graph g' n parent v r c x ls le la lc oc)
    (hF : Carried s.graph s.facts E n (inserted s.graph parent c oc) g' F')
    (hfuel : fuel.consumed = s.fuel.consumed + 1) :
    Progresses g₀ body s { s with
      graph := g', program := q, facts := F', fuel, rewrites := s.rewrites + 1 } := by
  have hreads : readsAhead g₀ { s with
      graph := g', program := q, facts := F', fuel, rewrites := s.rewrites + 1 } + 1 =
      readsAhead g₀ s := by
    rw [readsAhead, readsAhead, h.order, h.drop_after hs hin, h.readCount_after hs hin]
  refine ⟨.replace fuel h hin hF, h.sound hs hin hF fuel, ?_, ?_, ?_⟩
  · rw [Prod.lex_def]
    exact .inl (Nat.lt_of_succ_le (Nat.le_of_eq hreads))
  · change fuel.consumed + _ ≤ _
    omega
  · change s.fuel.consumed + (s.rewrites + 1) ≤ fuel.consumed + s.rewrites
    omega

/-- A step from `s` to `s'`, taken where the solver may visit as many nodes as it takes. -/
structure Goes (g₀ : Graph) (body : StmtId) (s s' : Sweep Known) : Prop where
  progresses : Progresses g₀ body s s'
  step : ∃ B, ∀ options : Options, B ≤ options.bound →
    s.step (analysis .declared) options = .ok (.next s')

theorem consumed_of_consume {fuel fuel' : Fuel} {allowed : Bool}
    (h : fuel.consume = .ok (allowed, fuel')) : fuel'.consumed = fuel.consumed + 1 := by
  rcases consume_cases fuel with ⟨hover, _⟩ | ⟨_, _, hfuel, hconsumed⟩
  · cases h.symm.trans hover
  · cases h.symm.trans hfuel
    exact hconsumed

section Proposal

variable {parent : Option NodeId} {v : VarId} {r x : ExprId} {E : NodeId → Effect}
  {ls : List StmtId} {le la : List ExprId}
  (h : Proposal g₀ body s ahead n parent v r x E ls le la)
include h

theorem Proposal.propose_eq : propose n s.graph (s.facts.joinIncoming s.graph n) =
    .ok (some { read := r, value := x }) := by
  rw [propose_read h.node, h.known]
  rfl

theorem Proposal.readCount_eq : readCount s.graph g₀.nodes.size (n :: ahead) =
    readCount s.graph g₀.nodes.size ahead + 1 := by
  rw [readCount_cons, readsEarly, h.node]
  simp [h.early]

/-- Where a rewrite is allowed, the sweep carries it out. -/
theorem Goes.of_allowed {q : Program} {g' : Graph} {c : ExprId} {lc : List ExprId}
    {oc : List Operation} {F' : FactMap Known} {B : Nat} {fuel : Fuel} (hs : Sound g₀ body s)
    (hfuel : s.fuel.consume = .ok (true, fuel))
    (hin : Inlined s.program q s.graph g' n parent v r c x ls le la lc oc)
    (hF : Carried s.graph s.facts E n (inserted s.graph parent c oc) g' F')
    (hreplace : ∀ b ≥ B, ∀ verify place fuel,
      Sweep.replace (analysis .declared).toAnalysis ⟨verify, b⟩ { s with fuel } place n
        ({ read := r, value := x } : Substitute) = .ok (.next { s with
          graph := g', program := q, facts := F', fuel, rewrites := s.rewrites + 1 })) :
    Goes g₀ body s { s with
      graph := g', program := q, facts := F', fuel, rewrites := s.rewrites + 1 } := by
  refine ⟨.of_replace h hs hin hF (consumed_of_consume hfuel), B, fun options hb => ?_⟩
  rw [step_allowed h.order h.propose_eq hfuel]
  exact hreplace options.bound hb options.verify s.index fuel

end Proposal

section Pass

variable {m F' : FactMap Known} {B : Nat} (hahead : s.graph.order.drop s.index = n :: ahead)
  (hinterpret : (analysis .declared).interpret n s.graph s.program s.facts = .ok m)
  (hsettle : ∀ b ≥ B, (analysis .declared).settle b s.graph s.program m = .ok F')
include hahead hinterpret hsettle

/-- Where nothing is proposed, the sweep goes past the node. -/
theorem Goes.of_pass (hnone : propose n s.graph (s.facts.joinIncoming s.graph n) = .ok none)
    (hs' : Sound g₀ body { s with facts := F', index := s.index + 1 }) :
    Goes g₀ body s { s with facts := F', index := s.index + 1 } := by
  refine ⟨.of_pass hahead hs' ?_ (Nat.le_refl _), B, fun options hb => ?_⟩
  · rw [readCount_cons]
    omega
  · exact step_interpreted hahead (judge_interpreted hnone hinterpret) (hsettle _ hb)

/-- Where a rewrite is not allowed, it goes past the node as if nothing were proposed. -/
theorem Goes.of_denied {parent : Option NodeId} {v : VarId} {r x : ExprId} {E : NodeId → Effect}
    {ls : List StmtId} {le la : List ExprId} {fuel : Fuel}
    (h : Proposal g₀ body s ahead n parent v r x E ls le la)
    (hfuel : s.fuel.consume = .ok (false, fuel))
    (hs' : Sound g₀ body { s with facts := F', index := s.index + 1, fuel }) :
    Goes g₀ body s { s with facts := F', index := s.index + 1, fuel } := by
  have hconsumed := consumed_of_consume hfuel
  have hreads := h.readCount_eq
  refine ⟨.of_pass hahead hs' (by omega) (by omega), B, fun options hb => ?_⟩
  exact step_denied hahead h.propose_eq hfuel hinterpret (hsettle _ hb)

end Pass

/-- A step of the sweep. The sweep is over, or the count of rewrites asked for is at its end, or the
    sweep gets on. -/
theorem Sound.step (h : Sound g₀ body s) :
    s.graph.order.drop s.index = [] ∧ (∀ options, s.step (analysis .declared) options = .ok .done) ∨
    Fuel.endless < s.fuel.consumed + readsAhead g₀ s ∧
      (∀ options, s.step (analysis .declared) options = .error .overflow) ∨
    ∃ s', Goes g₀ body s s' := by
  cases hahead : s.graph.order.drop s.index with
  | nil => exact .inl ⟨rfl, fun options => step_eq_done _ options hahead⟩
  | cons n ahead =>
    right
    obtain ⟨m, F', B, hinterpret, hsettle, hpass, _⟩ := h.exists_pass hahead
    obtain ⟨node, hnode⟩ := Arena.exists_get?_of_lt (h.linked.allocated n (mem_of_drop_eq hahead))
    rcases propose_cases hnode (s.facts.joinIncoming s.graph n) with hnone | ⟨v, r, x, hread, hx, _⟩
    · exact .inr ⟨_, .of_pass hahead hinterpret hsettle hnone (hpass s.fuel)⟩
    · rw [hread] at hnode
      obtain ⟨E, ls, le, la, hproposal⟩ := h.exists_proposal hahead hnode hx
      rcases consume_cases s.fuel with ⟨hover, hend⟩ | ⟨allowed, fuel, hfuel, _⟩
      · refine .inl ⟨?_, fun options => step_overflow hahead hproposal.propose_eq hover⟩
        rw [readsAhead, hahead, hproposal.readCount_eq]
        omega
      · cases allowed with
        | false => exact .inr ⟨_, .of_denied hahead hinterpret hsettle hproposal hfuel (hpass fuel)⟩
        | true =>
          obtain ⟨q, g', c, lc, oc, F'', B', hin, hF, hreplace⟩ := hproposal.exists_replace h
          exact .inr ⟨_, .of_allowed hproposal h hfuel hin hF hreplace⟩

/-! ### The whole sweep -/

/-- The sweep, from some place to its end: it is the same for all large bounds on the visits of the
    solver and on the steps of the sweep. -/
theorem Sound.exists_run {s : Sweep Known} (h : Sound g₀ body s) : ∃ B out,
    (∀ options : Options, B ≤ options.bound → ∀ steps ≥ B,
      Sweep.run (analysis .declared) options steps s = out) ∧
    (out = .error .overflow ∧ Fuel.endless < s.fuel.consumed + readsAhead g₀ s ∨
      ∃ s', out = .ok (.ok (), s') ∧ Relation.ReflTransGen (Progresses g₀ body) s s') := by
  rcases h.step with ⟨_, hdone⟩ | ⟨hmany, hover⟩ | ⟨s', hs', B, hstep⟩
  · refine ⟨1, .ok (.ok (), s), fun options _ steps hsteps => ?_, .inr ⟨s, rfl, .refl⟩⟩
    obtain ⟨steps, rfl⟩ := Nat.exists_eq_add_of_le' hsteps
    rw [Sweep.run, hdone]
  · refine ⟨1, .error .overflow, fun options _ steps hsteps => ?_, .inl ⟨rfl, hmany⟩⟩
    obtain ⟨steps, rfl⟩ := Nat.exists_eq_add_of_le' hsteps
    rw [Sweep.run, hover]
  · have hwork := hs'.work
    obtain ⟨B', out, hrun, hout⟩ := Sound.exists_run hs'.sound
    refine ⟨max B B' + 1, out, fun options hb steps hsteps => ?_, hout.imp (fun hov => ?_) ?_⟩
    · obtain ⟨steps, rfl⟩ := Nat.exists_eq_add_of_le' (Nat.le_of_add_left_le hsteps)
      rw [Sweep.run, hstep options (by omega)]
      exact hrun options (by omega) steps (by omega)
    · exact ⟨hov.1, Nat.lt_of_lt_of_le hov.2 hs'.fuel⟩
    · rintro ⟨t, rfl, ht⟩
      exact ⟨t, rfl, .head hs' ht⟩
termination_by work g₀ s
decreasing_by exact hwork

/-- The sweep `s` comes to its end at `t`, within all large bounds. -/
def Ends (s t : Sweep Known) : Prop :=
  ∃ B, ∀ options : Options, B ≤ options.bound → ∀ steps ≥ B,
    Sweep.run (analysis .declared) options steps s = .ok (.ok (), t)

theorem Ends.of_done (h : s.graph.order.drop s.index = []) : Ends s s := by
  refine ⟨1, fun options _ steps hsteps => ?_⟩
  obtain ⟨steps, rfl⟩ := Nat.exists_eq_add_of_le' hsteps
  rw [Sweep.run, step_eq_done _ options h]

theorem Ends.head (hs : Goes g₀ body s s') {t : Sweep Known} (h : Ends s' t) : Ends s t := by
  obtain ⟨B, hstep⟩ := hs.step
  obtain ⟨B', hrun⟩ := h
  refine ⟨max B B' + 1, fun options hb steps hsteps => ?_⟩
  obtain ⟨steps, rfl⟩ := Nat.exists_eq_add_of_le' (Nat.le_of_add_left_le hsteps)
  rw [Sweep.run, hstep options (by omega)]
  exact hrun options (by omega) steps (by omega)

/-! ### From start to end -/

/-- The start of a sweep. -/
def start (g : Graph) (p : Program) (facts : FactMap Known) (fuel : Fuel) : Sweep Known :=
  { graph := g, program := p, facts, fuel, index := 0 }

/-- What inlining in a body leaves, once its sweep is over. -/
def ended (s : Sweep Known) : Integration where
  outcome := .ok (decide (s.rewrites > 0))
  graph := s.graph
  program := s.program
  fuel := s.fuel

theorem integrate_of_ends {F : FactMap Known} {fuel : Fuel} {B : Nat} {t : Sweep Known}
    (hsolve : ∀ b ≥ B, (analysis .declared).solve b g p = .ok F) (h : Ends (start g p F fuel) t) :
    ∃ B, ∀ options : Options, B ≤ options.bound →
      (analysis .declared).integrate options fuel g p = .ok (ended t) := by
  obtain ⟨B', hrun⟩ := h
  refine ⟨max B B', fun options hb => ?_⟩
  rw [RewritingAnalysis.integrate, hsolve _ (by omega)]
  change (Sweep.run (analysis .declared) options options.bound (start g p F fuel) >>= _) = _
  rw [hrun options (by omega) options.bound (by omega)]
  rfl

section Start

variable {m : MethodId} (hp : p.IsTree) (hbody : (m, body) ∈ p.bodies)
  (hg : Graph.ofBody p body = .ok (.ok g))
include hp hbody hg

/-- The first solve ends. -/
theorem exists_first_solve : ∃ B F E, (∀ b ≥ B, (analysis .declared).solve b g p = .ok F) ∧
    Settled g F E ∧ ∀ n ∈ g.order, HasEffect .declared p g n (E n) := by
  obtain ⟨hlinked, hlaid⟩ := Graph.ofBody_laidOut hg
  obtain ⟨ls, le, hl⟩ := hp.isForest.exists_lists
  have hmem : body ∈ ls := hl.spans.mem_of_mem_roots (List.mem_map_of_mem hbody)
  obtain ⟨E, hE⟩ := exists_effects fun n hn =>
    exists_hasEffect hp.inRange hl hmem hlinked hlaid hn
  obtain ⟨N, hN⟩ := exists_index_bound E g.order
  obtain ⟨B, F, hF, hsolve⟩ := exists_solve_settled hlinked.toWired
    (hlaid.ordered hlinked.toWired) hE hN
  exact ⟨B, F, E, hsolve, hF, hE⟩

/-- Then the sweep may begin. -/
theorem exists_start : ∃ B F, (∀ b ≥ B, (analysis .declared).solve b g p = .ok F) ∧
    ∀ fuel, Sound g body (start g p F fuel) := by
  obtain ⟨hlinked, hlaid⟩ := Graph.ofBody_laidOut hg
  obtain ⟨ls, le, hl⟩ := hp.isForest.exists_lists
  have hmem : body ∈ ls := hl.spans.mem_of_mem_roots (List.mem_map_of_mem hbody)
  obtain ⟨B, F, E, hsolve, hF, hE⟩ := exists_first_solve hp hbody hg
  refine ⟨B, F, hsolve, fun fuel => {
    tree := hp
    lists := ⟨ls, le, hl, hmem⟩
    linked := hlinked
    laidOut := hlaid
    facts := ⟨E, hF, fun n hn => .inl (hE n hn)⟩
    size := Nat.le_refl _
    original := fun n hn _ => hn
    ahead := ⟨[], g.order, rfl, fun n hn => absurd hn List.not_mem_nil, hlinked.allocated⟩
    budget := Nat.le_of_eq (Nat.zero_add _) }⟩

/-- Inlining in a body comes to an end, the same for all large bounds. -/
theorem exists_integrate (fuel : Fuel) : ∃ F B out, Sound g body (start g p F fuel) ∧
    (∀ options : Options, B ≤ options.bound →
      (analysis .declared).integrate options fuel g p = out) ∧
    (out = .error .overflow ∧
        Fuel.endless < fuel.consumed + readCount g g.nodes.size g.order ∨
      ∃ s, Relation.ReflTransGen (Progresses g body) (start g p F fuel) s ∧ out = .ok (ended s)) := by
  obtain ⟨B, F, hsolve, hstart⟩ := exists_start hp hbody hg
  obtain ⟨B', out, hrun, hout⟩ := (hstart fuel).exists_run
  have hintegrate : ∀ options : Options, max B B' ≤ options.bound →
      (analysis .declared).integrate options fuel g p = out.map fun x =>
        { ended x.2 with outcome := x.1.map fun _ => decide (x.2.rewrites > 0) } := by
    intro options hb
    rw [RewritingAnalysis.integrate, hsolve _ (by omega)]
    change (Sweep.run (analysis .declared) options options.bound (start g p F fuel) >>= _) = _
    rw [hrun options (by omega) options.bound (by omega)]
    cases out <;> rfl
  refine ⟨F, max B B', _, hstart fuel, hintegrate, ?_⟩
  rcases hout with ⟨rfl, hmany⟩ | ⟨s, rfl, hs⟩
  · exact .inl ⟨rfl, hmany⟩
  · exact .inr ⟨s, hs, rfl⟩

/-- Inlining that comes to an end with some bound went all the way. -/
theorem exists_of_integrate {options : Options} {fuel : Fuel} {i : Integration}
    (h : (analysis .declared).integrate options fuel g p = .ok i) :
    ∃ F s, Sound g body (start g p F fuel) ∧
      Relation.ReflTransGen (Progresses g body) (start g p F fuel) s ∧ i = ended s := by
  obtain ⟨F, B, out, hstart, hrun, hout⟩ := exists_integrate hp hbody hg fuel
  have hlarge := RewritingAnalysis.integrate_mono h (Nat.le_max_left options.bound B)
  rw [hrun _ (Nat.le_max_right _ _)] at hlarge
  subst hlarge
  rcases hout with ⟨hover, _⟩ | ⟨s, hs, hi⟩
  · cases hover
  · exact ⟨F, s, hstart, hs, Except.ok.inj hi⟩

end Start

theorem Sound.of_reaches (h : Sound g₀ body s) (hs : Relation.ReflTransGen (Progresses g₀ body) s s') :
    Sound g₀ body s' := by
  induction hs with
  | refl => exact h
  | tail _ hlast _ => exact hlast.sound

/-- Any step that is taken, with whatever bound, is one that the sweep gets on by. -/
theorem Sound.progresses (h : Sound g₀ body s) {options : Options}
    (hstep : s.step (analysis .declared) options = .ok (.next s')) : Progresses g₀ body s s' := by
  rcases h.step with ⟨_, hdone⟩ | ⟨_, hover⟩ | ⟨t, ht, B, hlarge⟩
  · cases hstep.symm.trans (hdone options)
  · cases hstep.symm.trans (hover options)
  · cases Sweep.step_eq_of_large hstep hlarge
    exact ht

/-! ### Proposals on the way -/

end Inlining

namespace Sweep

variable {A T : Type}

/-- The sweep is at the node `n` and proposes a rewrite of it. -/
def Proposes (an : RewritingAnalysis A T) (s : Sweep A) (n : NodeId) (rewrite : T) : Prop :=
  ∃ i facts, s.place an.toAnalysis = some i ∧ s.graph.order[i]? = some n ∧
    an.judge n s.graph s.program s.facts = .ok (.replace rewrite, facts)

/-- The sweep `t` is reached from `s`, step by step. -/
inductive Reaches [Rewrite T] (an : RewritingAnalysis A T) (options : Options) (s : Sweep A) :
    Sweep A → Prop
  | refl : Reaches an options s s
  | next {t u : Sweep A} : Reaches an options s t → t.step an options = .ok (.next u) →
    Reaches an options s u

end Sweep

/-- The sweep `s` is reached by an integrated solve. -/
def RewritingAnalysis.Reaches {A T : Type} [Rewrite T] (an : RewritingAnalysis A T)
    (options : Options) (fuel : Fuel) (g : Graph) (p : Program) (s : Sweep A) : Prop :=
  ∃ facts, an.solve options.bound g p = .ok facts ∧
    Sweep.Reaches an options { graph := g, program := p, facts, fuel, index := match an.direction with
      | .forward => 0
      | .backward => g.order.length } s

/-- The number of nodes of a graph that read a variable. -/
def Graph.reads (g : Graph) : Nat :=
  g.order.countP fun n => match (g.nodes.get? n).map Node.kind with
    | some (.read _) => true
    | _ => false

theorem Graph.Linked.readCount_eq {g : Graph} (hg : g.Linked) :
    Inlining.readCount g g.nodes.size g.order = g.reads := by
  refine List.countP_congr fun n hn => ?_
  rw [Inlining.readsEarly, decide_eq_true (hg.allocated n hn)]
  cases g.nodes.get? n with
  | none => simp
  | some node => cases hkind : node.kind <;> simp [hkind]

namespace Inlining

/-- What an integrated solve of inlining reaches, it reaches soundly. -/
theorem sound_of_reaches {m : MethodId} (hp : p.IsTree) (hbody : (m, body) ∈ p.bodies)
    (hg : Graph.ofBody p body = .ok (.ok g)) {options : Options} {fuel : Fuel}
    (hs : (analysis .declared).Reaches options fuel g p s) :
    Sound g body s ∧ ∃ F, Relation.ReflTransGen (Progresses g body) (start g p F fuel) s := by
  obtain ⟨F, hF, hs⟩ := hs
  obtain ⟨B, F', hsolve, hstart⟩ := exists_start hp hbody hg
  obtain rfl := Analysis.solve_eq_of_large hF hsolve
  suffices Relation.ReflTransGen (Progresses g body) (start g p F fuel) s from
    ⟨(hstart fuel).of_reaches this, F, this⟩
  induction hs with
  | refl => exact .refl
  | next _ hstep ih => exact ih.tail (((hstart fuel).of_reaches ih).progresses hstep)

/-- A rewrite that the sweep proposes replaces a read by a value that is known. -/
theorem Sound.exists_of_proposes (h : Sound g₀ body s) {rewrite : Substitute}
    (hs : s.Proposes (analysis .declared) n rewrite) : ∃ ahead parent v E ls le la,
      Proposal g₀ body s ahead n parent v rewrite.read rewrite.value E ls le la ∧
        rewrite = { read := rewrite.read, value := rewrite.value } := by
  obtain ⟨i, facts, hplace, hn, hjudge⟩ := hs
  obtain ⟨hlt, rfl⟩ : s.index < s.graph.order.length ∧ s.index = i := by
    change (if s.index < s.graph.order.length then some s.index else none) = some i at hplace
    split at hplace
    · exact ⟨‹_›, Option.some.inj hplace⟩
    · cases hplace
  obtain ⟨_, rfl⟩ := List.getElem?_eq_some_iff.1 hn
  have hahead := List.drop_eq_getElem_cons hlt
  obtain ⟨node, hnode⟩ := Arena.exists_get?_of_lt (h.linked.allocated _ (mem_of_drop_eq hahead))
  rcases propose_cases hnode (s.facts.joinIncoming s.graph _) with hnone | ⟨v, r, x, hread, hx, hsome⟩
  · obtain ⟨m, F', B, hinterpret, _⟩ := h.exists_pass hahead
    cases hjudge.symm.trans (judge_interpreted hnone hinterpret)
  · cases hjudge.symm.trans (judge_replace hsome)
    rw [hread] at hnode
    obtain ⟨E, ls, le, la, hproposal⟩ := h.exists_proposal hahead hnode hx
    exact ⟨_, _, v, E, ls, le, la, hproposal, rfl⟩

theorem exists_ofBody_of_ofMethod {m : MethodId} (hg : Graph.ofMethod p m = .ok (.ok g)) :
    ∃ body, (m, body) ∈ p.bodies ∧ Graph.ofBody p body = .ok (.ok g) := by
  obtain ⟨decl, hdecl, hg⟩ := Run.bind_eq_ok.1 hg
  cases hbody : decl.body with
  | none =>
    rw [hbody] at hg
    cases hg
  | some body =>
    rw [hbody] at hg
    refine ⟨body, Program.mem_bodies_iff.2 ?_, hg⟩
    rw [Arena.get_eq_ok_iff.1 hdecl]
    exact hbody

/-- The value of a proposal passes the checks that it passed when it was remembered. -/
theorem Proposal.checks {E : NodeId → Effect} {parent : Option NodeId} {v : VarId} {r x : ExprId}
    {ls : List StmtId} {le la : List ExprId} (h : Proposal g₀ body s ahead n parent v r x E ls le la)
    (hp : s.program.InRange) : s.program.isImpure x = .ok false ∧
      s.program.allocates x = .ok false ∧ s.program.references x v = .ok false := by
  refine ⟨?_, ?_, ?_⟩
  · rw [h.spans.isImpure_eq hp, (Program.any_entriesOf_eq_false s.program.impureHead).2]
    exact fun e he y hy => (h.inert e he y hy).1
  · rw [h.spans.allocates_eq, (Program.any_entriesOf_eq_false Expr.isAllocation).2]
    exact fun e he y hy => (h.inert e he y hy).2
  · rw [h.spans.references_eq,
      (Program.any_entriesOf_eq_false fun y => y.namedVar == some v).2]
    exact fun e he y hy => beq_eq_false_iff_ne.2 (h.avoids e he y hy)

/-- Inlining in a body of a tree program ends. Whatever is proposed on the way is to replace a read
    by a value that does nothing else, allocates nothing and does not refer to the variable that is
    read; and the node was there from the start, so there are no more rewrites than reads. -/
theorem integrate_ends {p : Program} {m : MethodId} {g : Graph} (hp : p.IsTree)
    (hg : Graph.ofMethod p m = .ok (.ok g)) (fuel : Fuel) :
    (∃ B out, (∀ options : Options, B ≤ options.bound →
        (analysis .declared).integrate options fuel g p = out) ∧
      (out = .error .overflow ∧ Fuel.endless < fuel.consumed + g.reads ∨
        ∃ i changed, out = .ok i ∧ i.outcome = .ok changed)) ∧
    ∀ options s, (analysis .declared).Reaches options fuel g p s → s.rewrites ≤ g.reads ∧
      ∀ n rewrite, s.Proposes (analysis .declared) n rewrite → n ∈ g.order ∧
        ∃ v, s.graph.kind n = .ok (.read v) ∧
          Oracle.declared.mayHaveEffects s.program rewrite.value = .ok false ∧
          s.program.allocates rewrite.value = .ok false ∧
          s.program.references rewrite.value v = .ok false := by
  obtain ⟨body, hbody, hg⟩ := exists_ofBody_of_ofMethod hg
  have hlinked := (Graph.ofBody_laidOut hg).1
  constructor
  · obtain ⟨F, B, out, _, hrun, hout⟩ := exists_integrate hp hbody hg fuel
    rw [hlinked.readCount_eq] at hout
    exact ⟨B, out, hrun, hout.imp_right fun ⟨s, _, hs⟩ => ⟨_, _, hs, rfl⟩⟩
  · intro options s hs
    obtain ⟨hsound, _⟩ := sound_of_reaches hp hbody hg hs
    refine ⟨?_, fun n rewrite hn => ?_⟩
    · rw [← hlinked.readCount_eq]
      exact Nat.le_of_add_right_le hsound.budget
    · obtain ⟨ahead, parent, v, E, ls, le, la, h, _⟩ := hsound.exists_of_proposes hn
      obtain ⟨himpure, hallocates, hreferences⟩ := h.checks hsound.tree.inRange
      refine ⟨hsound.original n h.mem h.early, v, ?_, himpure, hallocates, hreferences⟩
      rw [Graph.kind, Arena.get_eq_ok_iff.2 h.node]
      rfl

/-- A method that returns a copy of a copy of a constant. -/
def sampleCopy : Program where
  vars := ⟨#[{ name := "i", type := .int, kind := .ofMethod },
    { name := "j", type := .int, kind := .ofMethod }]⟩
  methods := ⟨#[{ name := "copy", returns := .int, params := [], isPure := true, body := some ⟨3⟩ }]⟩
  exprs := ⟨#[.int 1, .var ⟨0⟩, .var ⟨1⟩]⟩
  stmts := ⟨#[.declare ⟨0⟩ (some ⟨0⟩), .declare ⟨1⟩ (some ⟨1⟩), .ret (some ⟨2⟩),
    .block [⟨0⟩, ⟨1⟩, ⟨2⟩]]⟩

theorem integrate_ends_copy : ∃ g, Graph.ofMethod sampleCopy ⟨0⟩ = .ok (.ok g) ∧ g.reads = 2 ∧
    ∃ B i changed, i.outcome = .ok changed ∧ ∀ options : Options, B ≤ options.bound →
      (analysis .declared).integrate options Fuel.infinite g sampleCopy = .ok i := by
  have htree : sampleCopy.IsTree :=
    Program.isTree_of_check (show sampleCopy.checksAsTree 8 = true by decide)
  obtain ⟨g, hg, hreads⟩ : ∃ g, Graph.ofMethod sampleCopy ⟨0⟩ = .ok (.ok g) ∧ g.reads = 2 :=
    ⟨_, rfl, by decide⟩
  obtain ⟨⟨B, out, hrun, hout⟩, _⟩ := integrate_ends htree hg Fuel.infinite
  refine ⟨g, hg, hreads, B, ?_⟩
  rcases hout with ⟨_, hmany⟩ | ⟨i, changed, rfl, hi⟩
  · rw [hreads] at hmany
    exact absurd hmany (by decide)
  · exact ⟨i, changed, hi, hrun⟩

end Inlining

end Dataflow
