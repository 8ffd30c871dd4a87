import Dataflow.Proofs.Optimization

/-!
# Counting proposals

The count of rewrites asked for, which fuel keeps, is the number of proposals that were made,
whether they were carried out or not. A sweep makes one proposal at most at each place.

* `Sweep.proposals`: the proposals on the way of a sweep;
* `Sweep.consumed_run`: fuel counts them;
* `Inlining.optimizeMethods_consumed`: the same for all bodies.
-/

namespace Dataflow

variable {A T : Type} [Rewrite T] {an : RewritingAnalysis A T} {options : Options}

namespace Sweep

variable {s s' : Sweep A}

/-- Whether the sweep proposes a rewrite of the next node. -/
def isProposing (an : RewritingAnalysis A T) (s : Sweep A) : Bool :=
  match s.place an.toAnalysis with
  | none => false
  | some place =>
    match s.graph.order[place]? with
    | none => false
    | some n =>
      match an.judge n s.graph s.program s.facts with
      | .ok (.replace _, _) => true
      | _ => false

/-- The number of proposals on the way of a sweep, in `bound` steps at most. -/
def proposals (an : RewritingAnalysis A T) (options : Options) : (bound : Nat) → Sweep A → Nat
  | 0, _ => 0
  | bound + 1, s =>
    (if s.isProposing an then 1 else 0) +
      match s.step an options with
      | .ok (.next s) => proposals an options bound s
      | _ => 0

/-- A step leaves the sweep with some fuel. -/
def LeavesFuel (x : Progress (Sweep A)) (fuel : Fuel) : Prop :=
  ∃ s', (x = .next s' ∨ ∃ e, x = .failed e s') ∧ s'.fuel = fuel

omit [Rewrite T] in
theorem leavesFuel_pass {an : Analysis A} {bound : Nat} {m : FactMap A} {x : Progress (Sweep A)}
    (h : s.pass an bound m = .ok x) : LeavesFuel x s.fuel := by
  obtain ⟨facts, _, hx⟩ := Run.bind_eq_ok.1 h
  cases hx
  refine ⟨_, .inl rfl, ?_⟩
  rw [advance]
  split <;> rfl

theorem leavesFuel_replace {an : Analysis A} {place : Nat} {n : NodeId} {rewrite : T}
    {x : Progress (Sweep A)} (h : s.replace an options place n rewrite = .ok x) :
    LeavesFuel x s.fuel := by
  obtain ⟨attempt, _, h⟩ := Run.bind_eq_ok.1 h
  cases houtcome : attempt.outcome with
  | error e =>
    simp only [houtcome] at h
    cases h
    exact ⟨_, .inr ⟨e, rfl⟩, rfl⟩
  | ok rewrite' =>
    simp only [houtcome, Run.bind_eq_ok] at h
    obtain ⟨fragment, _, h⟩ := h
    cases fragment with
    | error e =>
      cases h
      exact ⟨_, .inr ⟨e, rfl⟩, rfl⟩
    | ok f =>
      cases hspliced : (attempt.graph.splice n f).1 with
      | error e =>
        simp only [hspliced] at h
        cases h
        exact ⟨_, .inr ⟨e, rfl⟩, rfl⟩
      | ok inserted =>
        simp only [hspliced] at h
        split at h
        · next e _ =>
          cases h
          exact ⟨_, .inr ⟨e, rfl⟩, rfl⟩
        · obtain ⟨facts, _, hx⟩ := Run.bind_eq_ok.1 h
          cases hx
          exact ⟨_, .inl rfl, rfl⟩

/-- Each step counts the proposal that it makes, if it makes one. -/
theorem consumed_step {x : Progress (Sweep A)} (h : s.step an options = .ok x) :
    x = .done ∧ s.isProposing an = false ∨
      ∃ fuel, LeavesFuel x fuel ∧
        fuel.consumed = s.fuel.consumed + if s.isProposing an then 1 else 0 := by
  rw [step] at h
  rw [isProposing]
  cases hplace : s.place an.toAnalysis with
  | none =>
    simp only [hplace] at h
    cases h
    exact .inl ⟨rfl, rfl⟩
  | some place =>
    simp only [hplace] at h
    cases hn : s.graph.order[place]? with
    | none =>
      simp only [hn] at h
      cases h
      exact .inl ⟨rfl, by simp only [hn]⟩
    | some n =>
      right
      simp only [hn] at h ⊢
      obtain ⟨⟨verdict, m⟩, hjudge, h⟩ := Run.bind_eq_ok.1 h
      simp only [hjudge]
      cases verdict with
      | interpreted => exact ⟨_, leavesFuel_pass h, rfl⟩
      | replace rewrite =>
        obtain ⟨⟨allowed, fuel⟩, hfuel, h⟩ := Run.bind_eq_ok.1 h
        refine ⟨fuel, ?_, Inlining.consumed_of_consume hfuel⟩
        cases allowed with
        | true => exact leavesFuel_replace h
        | false =>
          obtain ⟨m', _, h⟩ := Run.bind_eq_ok.1 h
          exact leavesFuel_pass h

/-- A sweep that comes to its end, or fails, has counted all proposals on the way. -/
theorem consumed_run {steps : Nat} {y : Except Error Unit × Sweep A}
    (h : run an options steps s = .ok y) :
    y.2.fuel.consumed = s.fuel.consumed + proposals an options steps s := by
  induction steps generalizing s with
  | zero => cases h
  | succ steps ih =>
    rw [run] at h
    rw [proposals]
    cases hstep : s.step an options with
    | error fault => simp [hstep] at h
    | ok x =>
      rw [hstep] at h
      rcases consumed_step hstep with ⟨rfl, hnot⟩ | ⟨fuel, ⟨s', rfl | ⟨e, rfl⟩, rfl⟩, hconsumed⟩
      · cases h
        simp [hnot]
      · rw [ih h, hconsumed]
        exact Nat.add_assoc _ _ _
      · cases h
        exact hconsumed

end Sweep

/-- The number of proposals that an integrated solve makes. -/
def RewritingAnalysis.proposals (an : RewritingAnalysis A T) (options : Options) (fuel : Fuel)
    (graph : Graph) (program : Program) : Nat :=
  match an.solve options.bound graph program with
  | .ok facts =>
    let index := match an.direction with
      | .forward => 0
      | .backward => graph.order.length
    Sweep.proposals an options options.bound { graph, program, facts, fuel, index }
  | .error _ => 0

theorem RewritingAnalysis.consumed_integrate {fuel : Fuel} {g : Graph} {p : Program}
    {i : Integration} (h : an.integrate options fuel g p = .ok i) :
    i.fuel.consumed = fuel.consumed + an.proposals options fuel g p := by
  obtain ⟨facts, hfacts, h⟩ := Run.bind_eq_ok.1 h
  obtain ⟨y, hy, h⟩ := Run.bind_eq_ok.1 h
  cases h
  simp only [proposals, hfacts]
  exact Sweep.consumed_run hy

namespace Inlining

/-- The number of proposals while inlining in the bodies of methods, in order. -/
def proposals (oracle : Oracle) (options : Options) : List MethodId → Program → Fuel → Nat
  | [], _, _ => 0
  | m :: ms, p, fuel =>
    match Graph.ofMethod p m with
    | .ok (.ok g) =>
      (analysis oracle).proposals options fuel g p +
        match (analysis oracle).integrate options fuel g p with
        | .ok ⟨.ok _, _, program, fuel⟩ => proposals oracle options ms program fuel
        | _ => 0
    | _ => 0

theorem optimizeMethods_consumed {oracle : Oracle} {ms : List MethodId} {p : Program}
    {fuel : Fuel} {changed : Bool} {o : Optimization}
    (h : optimizeMethods oracle options ms p fuel changed = .ok o) :
    o.fuel.consumed = fuel.consumed + proposals oracle options ms p fuel := by
  induction ms generalizing p fuel changed with
  | nil =>
    cases h
    rfl
  | cons m ms ih =>
    obtain ⟨decl, _, h⟩ := Run.bind_eq_ok.1 h
    obtain ⟨lowered, hlowered, h⟩ := Run.bind_eq_ok.1 h
    rw [proposals, hlowered]
    cases lowered with
    | error e =>
      cases h
      rfl
    | ok g =>
      obtain ⟨⟨outcome, graph, program, fuel'⟩, hi, h⟩ := Run.bind_eq_ok.1 h
      have hconsumed := RewritingAnalysis.consumed_integrate hi
      simp only [hi]
      cases outcome with
      | error e =>
        cases h
        exact hconsumed
      | ok rewritten =>
        rw [ih h, hconsumed]
        exact Nat.add_assoc _ _ _

end Inlining

end Dataflow
