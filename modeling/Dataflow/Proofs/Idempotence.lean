import Dataflow.Proofs.Elsewhere

/-!
# Inlining once more

A body without reads of known values is one that inlining leaves alone. With fuel without end inlining
leaves such bodies only, so in a program whose loops stir it changes nothing when it is
done once more (`optimize_idempotent_of_loopsStir`).

Where a loop does not stir this need not be so (`optimize_changes_twice`). A value that becomes known
in front of the loop by a rewrite goes around it and meets what was known there before. The two
differ, so the value counts as unknown in the loop, and a read of it there is only replaced when all
facts are solved from scratch, in the next run.

* `Exhausted.integrate_eq`: nothing is done in a body without reads of known values;
* `Halfway.of_optimizeMethods`: inlining in all bodies leaves such bodies.
-/

namespace Dataflow.Inlining

variable {p : Program} {g : Graph} {body b : StmtId} {s : Sweep Known} {m : MethodId}
  {ms : List MethodId} {options : Options} {fuel : Fuel} {n : NodeId} {E : NodeId → Effect}

/-! ### Nothing to replace -/

/-- Nothing is proposed where no value that is read is known. -/
theorem ReadsUnknown.propose_eq {F : FactMap Known} (h : ReadsUnknown g F n) {node : Node}
    (hnode : g.nodes.get? n = some node) : propose n g (F.joinIncoming g n) = .ok none := by
  rcases propose_cases hnode (F.joinIncoming g n) with hnone | ⟨v, r, x, hread, hx, _⟩
  · exact hnone
  · rw [hread] at hnode
    rw [h v r _ hnode] at hx
    cases hx

/-- A step past a node. -/
theorem step_of_readsUnknown (hφ : Flow.Follows ⟨s.graph, s.facts, E⟩ s.program body)
    (hreads : ∀ n ∈ s.graph.order, ReadsUnknown s.graph s.facts n) {ahead : List NodeId}
    (hahead : s.graph.order.drop s.index = n :: ahead) (options : Options) :
    s.step (analysis .declared) options = .ok (.next { s with index := s.index + 1 }) := by
  have hn := mem_of_drop_eq hahead
  obtain ⟨node, hnode⟩ := Arena.exists_get?_of_lt (hφ.linked.allocated n hn)
  exact step_interpreted hahead (judge_interpreted ((hreads n hn).propose_eq hnode)
    (interpret_settled hφ.settled hn (hφ.effects n hn)))
    (Analysis.settle_eq _ _ _ _ hφ.settled.changed)

/-- The whole sweep only goes past nodes. -/
theorem exists_run_of_readsUnknown (hφ : Flow.Follows ⟨s.graph, s.facts, E⟩ s.program body)
    (hreads : ∀ n ∈ s.graph.order, ReadsUnknown s.graph s.facts n) (options : Options) {steps : Nat}
    (hsteps : (s.graph.order.drop s.index).length < steps) :
    ∃ i, Sweep.run (analysis .declared) options steps s = .ok (.ok (), { s with index := i }) := by
  induction hahead : s.graph.order.drop s.index generalizing s steps with
  | nil =>
    obtain ⟨steps, rfl⟩ := Nat.exists_eq_add_of_le' (Nat.one_le_of_lt hsteps)
    exact ⟨s.index, by rw [Sweep.run, step_eq_done _ options hahead]⟩
  | cons n ahead ih =>
    obtain ⟨steps, rfl⟩ := Nat.exists_eq_add_of_le' (Nat.one_le_of_lt hsteps)
    have hnext := drop_succ_of_drop_eq hahead
    rw [hahead, List.length_cons] at hsteps
    obtain ⟨i, hi⟩ := ih (s := { s with index := s.index + 1 }) hφ hreads (by
      change (s.graph.order.drop (s.index + 1)).length < steps
      rw [hnext]
      omega) hnext
    exact ⟨i, by rw [Sweep.run, step_of_readsUnknown hφ hreads hahead]; exact hi⟩

/-- Inlining does nothing in a body without reads of known values. -/
theorem Exhausted.integrate_eq (h : Exhausted p body) (hp : p.IsTree) (hloops : p.LoopsStir)
    (hbody : (m, body) ∈ p.bodies) (hg : Graph.ofBody p body = .ok (.ok g)) :
    ∃ B, ∀ options : Options, B ≤ options.bound → ∀ fuel,
      (analysis .declared).integrate options fuel g p = .ok ⟨.ok false, g, p, fuel⟩ := by
  obtain ⟨B, F, E, hsolve, hF, hE⟩ := exists_first_solve hp hbody hg
  obtain ⟨hlinked, hlaid⟩ := Graph.ofBody_laidOut hg
  obtain ⟨ls, le, hl⟩ := hp.isForest.exists_lists
  have hψ : Flow.Follows ⟨g, F, E⟩ p body := {
    tree := hp
    lists := ⟨ls, le, hl, hl.spans.mem_of_mem_roots (List.mem_map_of_mem hbody)⟩
    linked := hlinked
    laidOut := hlaid
    settled := hF
    effects := hE }
  -- The graph and the facts are not those that the body is known by, but they agree with them.
  refine ⟨max B (g.order.length + 1), fun options hb fuel => ?_⟩
  have hsteps : g.order.length < options.bound := by omega
  obtain ⟨i, hi⟩ := exists_run_of_readsUnknown (s := start g p F fuel) hψ
    (fun n hn => h.readsUnknown hψ hloops hn) options hsteps
  rw [RewritingAnalysis.integrate, hsolve _ (by omega)]
  change (Sweep.run (analysis .declared) options options.bound (start g p F fuel) >>= _) = _
  rw [hi]
  rfl

/-- Nor does it in any number of bodies. -/
theorem optimizeMethods_eq_of_exhausted (hp : p.IsTree) (hloops : p.LoopsStir)
    (hex : ∀ b ∈ p.bodies.map Prod.snd, Exhausted p b) (hms : ∀ m ∈ ms, m ∈ p.bodies.map Prod.fst) :
    ∃ B, ∀ options : Options, B ≤ options.bound → ∀ fuel changed,
      optimizeMethods .declared options ms p fuel changed = .ok ⟨.ok changed, p, fuel⟩ := by
  induction ms with
  | nil => exact ⟨0, fun _ _ _ _ => rfl⟩
  | cons m ms ih =>
    rw [List.forall_mem_cons] at hms
    obtain ⟨B, hrest⟩ := ih hms.2
    obtain ⟨⟨m', body⟩, hbody, hm'⟩ := List.mem_map.1 hms.1
    obtain rfl : m' = m := hm'
    obtain ⟨⟨decl, hdecl⟩, hmethod⟩ := ofMethod_eq hbody
    obtain ⟨φ, hφ, _⟩ := hex body (List.mem_map_of_mem hbody)
    obtain ⟨ls, le, hl, hmem⟩ := hφ.lists
    obtain ⟨g, hg⟩ := hφ.laidOut.exists_ofBody hl hmem
    obtain ⟨B', hintegrate⟩ :=
      (hex body (List.mem_map_of_mem hbody)).integrate_eq hp hloops hbody hg
    refine ⟨max B B', fun options hb fuel changed => ?_⟩
    rw [optimizeMethods, hdecl, hmethod, hg]
    change ((analysis .declared).integrate options fuel g p >>= _) = _
    rw [hintegrate options (by omega)]
    change optimizeMethods .declared options ms p fuel (changed || false) = _
    rw [Bool.or_false, hrest options (by omega)]

/-! ### The first run -/

/-- What holds of a program on the way through its bodies, where those of the methods `ms` are still
    to come. -/
structure Halfway (p : Program) (fuel : Fuel) (ms : List MethodId) : Prop where
  tree : p.IsTree
  loops : p.LoopsStir
  fuel : fuel.remaining = Fuel.endless
  exhausted : ∀ m b, (m, b) ∈ p.bodies → m ∉ ms → Exhausted p b

/-- Inlining in one body. -/
theorem Halfway.integrate (h : Halfway p fuel (m :: ms)) (hg : Graph.ofMethod p m = .ok (.ok g))
    {i : Integration} (hi : (analysis .declared).integrate options fuel g p = .ok i) :
    Halfway i.program i.fuel ms ∧ i.program.bodies = p.bodies := by
  obtain ⟨body, hbody, hg⟩ := exists_ofBody_of_ofMethod hg
  obtain ⟨hexhausted, hfuel⟩ := exhausted_of_integrate h.tree hbody hg h.fuel hi
  obtain ⟨F, s, hstart, hs, rfl⟩ := exists_of_integrate h.tree hbody hg hi
  have hbodies : s.program.bodies = p.bodies := bodies_eq_of_reaches hs
  refine ⟨⟨(hstart.of_reaches hs).tree, loopsStir_of_reaches hs hstart h.loops, hfuel,
    fun m' b hb hm' => ?_⟩, hbodies⟩
  change (m', b) ∈ s.program.bodies at hb
  rw [hbodies] at hb
  by_cases hne : body = b
  · exact hne ▸ hexhausted
  · refine exhausted_of_reaches hs hstart (List.mem_map_of_mem hbody) (List.mem_map_of_mem hb) hne
      (h.exhausted m' b hb ?_)
    rw [List.mem_cons, not_or]
    refine ⟨?_, hm'⟩
    -- A method has one body only.
    rintro rfl
    rw [Program.mem_bodies_iff] at hbody hb
    exact hne (Option.some.inj (hbody.symm.trans hb))

/-- Inlining in all bodies that are still to come. -/
theorem Halfway.of_optimizeMethods (h : Halfway p fuel ms) {changed changed' : Bool}
    {o : Optimization} (ho : optimizeMethods .declared options ms p fuel changed = .ok o)
    (houtcome : o.outcome = .ok changed') :
    Halfway o.program o.fuel [] ∧ o.program.bodies = p.bodies := by
  induction ms generalizing p fuel changed with
  | nil =>
    cases ho
    exact ⟨h, rfl⟩
  | cons m ms ih =>
    obtain ⟨decl, _, ho⟩ := Run.bind_eq_ok.1 ho
    obtain ⟨lowered, hlowered, ho⟩ := Run.bind_eq_ok.1 ho
    cases lowered with
    | error e =>
      cases ho
      cases houtcome
    | ok g =>
      obtain ⟨i, hi, ho⟩ := Run.bind_eq_ok.1 ho
      obtain ⟨hnext, hbodies⟩ := h.integrate hlowered hi
      cases hrewritten : i.outcome with
      | error e =>
        rw [hrewritten] at ho
        cases ho
        cases houtcome
      | ok rewritten =>
        simp only [hrewritten] at ho
        obtain ⟨hend, hbodies'⟩ := ih hnext ho
        exact ⟨hend, hbodies'.trans hbodies⟩

/-! ### Both runs -/

/-- Inlining is idempotent on tree programs whose loops stir: what a run with fuel without end
    leaves, a second run with any fuel leaves as it is. -/
theorem optimize_idempotent_of_loopsStir {p : Program} (hp : p.IsTree) (hloops : p.LoopsStir)
    {options : Options} {o : Optimization} {changed : Bool}
    (ho : optimize .declared options Fuel.infinite p = .ok o) (houtcome : o.outcome = .ok changed) :
    ∃ B, ∀ options : Options, B ≤ options.bound → ∀ fuel,
      optimize .declared options fuel o.program = .ok ⟨.ok false, o.program, fuel⟩ := by
  have hstart : Halfway p Fuel.infinite (p.bodies.map Prod.fst) :=
    ⟨hp, hloops, rfl, fun m b hb hm => absurd (List.mem_map_of_mem hb) hm⟩
  -- The first run leaves a program whose loops still stir, with nothing to replace in any body.
  obtain ⟨hend, _⟩ := hstart.of_optimizeMethods ho houtcome
  obtain ⟨B, hB⟩ := optimizeMethods_eq_of_exhausted hend.tree hend.loops
    (fun b hb => by
      obtain ⟨⟨m, b'⟩, hmem, rfl⟩ := List.mem_map.1 hb
      exact hend.exhausted m b' hmem List.not_mem_nil) fun m hm => hm
  exact ⟨B, fun options hb fuel => hB options hb fuel false⟩

/-- A constant, a copy of it, and a loop in which a third variable is written. -/
def sampleStirring : Program where
  vars := ⟨#[{ name := "w", type := .int, kind := .ofMethod },
    { name := "v", type := .int, kind := .ofMethod },
    { name := "u", type := .int, kind := .ofMethod }]⟩
  methods := ⟨#[{ name := "m", returns := .void, params := [], isPure := false, body := some ⟨4⟩ }]⟩
  exprs := ⟨#[.int 1, .var ⟨0⟩, .var ⟨1⟩, .int 2]⟩
  stmts := ⟨#[.declare ⟨0⟩ (some ⟨0⟩), .declare ⟨1⟩ (some ⟨1⟩), .declare ⟨2⟩ (some ⟨3⟩),
    .loop ⟨2⟩ ⟨2⟩, .block [⟨0⟩, ⟨1⟩, ⟨3⟩]]⟩

theorem optimize_idempotent_of_loopsStir_copy : sampleStirring.IsTree ∧ sampleStirring.LoopsStir ∧
    ∃ o : Optimization, optimize .declared { bound := 50 } Fuel.infinite sampleStirring = .ok o ∧
      o.outcome = .ok true ∧ ∃ B, ∀ options : Options, B ≤ options.bound → ∀ fuel,
        optimize .declared options fuel o.program = .ok ⟨.ok false, o.program, fuel⟩ := by
  have htree : sampleStirring.IsTree :=
    Program.isTree_of_check (show sampleStirring.checksAsTree 8 = true by decide)
  have hloops : sampleStirring.LoopsStir := by
    rintro _ _ ⟨i⟩ condition t _ hst
    match i, hst with
    | 0, hst | 1, hst | 2, hst | 4, hst | _ + 5, hst => cases hst
    | 3, hst =>
      cases hst
      exact .inr (.declare rfl)
  have houtcome : (optimize .declared { bound := 50 } Fuel.infinite sampleStirring).map
      Optimization.outcome = .ok (.ok true) := by
    decide +kernel
  cases h : optimize .declared { bound := 50 } Fuel.infinite sampleStirring with
  | error fault =>
    rw [h] at houtcome
    cases houtcome
  | ok o =>
    rw [h] at houtcome
    have ho : o.outcome = .ok true := Except.ok.inj houtcome
    exact ⟨htree, hloops, o, rfl, ho, optimize_idempotent_of_loopsStir htree hloops h ho⟩

/-- A constant, a copy of it, and a loop in which nothing is done. -/
def sampleStale : Program where
  vars := ⟨#[{ name := "w", type := .int, kind := .ofMethod },
    { name := "v", type := .int, kind := .ofMethod }]⟩
  methods := ⟨#[{ name := "m", returns := .void, params := [], isPure := false, body := some ⟨4⟩ }]⟩
  exprs := ⟨#[.int 1, .var ⟨0⟩, .var ⟨1⟩]⟩
  stmts := ⟨#[.declare ⟨0⟩ (some ⟨0⟩), .declare ⟨1⟩ (some ⟨1⟩), .block [], .loop ⟨2⟩ ⟨2⟩,
    .block [⟨0⟩, ⟨1⟩, ⟨3⟩]]⟩

/-- The first run replaces the copied variable, the second one the condition of the loop. -/
theorem optimize_changes_twice : sampleStale.IsTree ∧ ∃ o o' : Optimization,
    (∀ B ≥ 50, optimize .declared { bound := B } Fuel.infinite sampleStale = .ok o) ∧
    o.outcome = .ok true ∧
    (∀ B ≥ 50, optimize .declared { bound := B } Fuel.infinite o.program = .ok o') ∧
    o'.outcome = .ok true := by
  have htree : sampleStale.IsTree :=
    Program.isTree_of_check (show sampleStale.checksAsTree 8 = true by decide)
  have houtcomes : (do
      let o ← optimize .declared { bound := 50 } Fuel.infinite sampleStale
      let o' ← optimize .declared { bound := 50 } Fuel.infinite o.program
      return (o.outcome, o'.outcome)) = Except.ok (.ok true, .ok true) := by
    decide +kernel
  obtain ⟨o, ho, houtcomes⟩ := Run.bind_eq_ok.1 houtcomes
  obtain ⟨o', ho', houtcomes⟩ := Run.bind_eq_ok.1 houtcomes
  obtain ⟨hchanged, hchanged'⟩ := Prod.mk.inj (Except.ok.inj houtcomes)
  exact ⟨htree, o, o', fun B hB => optimizeMethods_mono ho hB, hchanged,
    fun B hB => optimizeMethods_mono ho' hB, hchanged'⟩

end Dataflow.Inlining
