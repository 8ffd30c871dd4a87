import Dataflow.Inlining.Optimize
import Dataflow.Proofs.Acceptance
import Dataflow.Proofs.Erasure
import Dataflow.Proofs.Integration

/-!
# Inlining in all bodies of a program

Inlining goes through the bodies of a tree program one after the other. It leaves a tree program
with the same bodies each time, so there is one way only for it to fail: the graph of a body cannot
be made, as something is assigned to that is neither a variable nor a field. The graph of each body
follows what is done to the body.

* `Visits`: the sweeps that are reached on the way;
* `exists_optimizeMethods`: inlining in some bodies, from start to end;
* `Sound.goes_through`: whatever rewrite is proposed on the way goes through;
* `optimize_fails_only_at_targets`: all of this for a whole program;
* `integrate_erasure_eq`: the graph afterwards is that of the body, up to silent nodes.
-/

namespace Dataflow.Inlining

variable {p : Program} {g : Graph} {body : StmtId} {s s' : Sweep Known} {m : MethodId}
  {ms : List MethodId} {options : Options} {fuel : Fuel} {changed : Bool}

/-- The sweep `s` is reached while inlining in the bodies of methods. -/
inductive Visits (oracle : Oracle) (options : Options) :
    List MethodId → Program → Fuel → Sweep Known → Prop
  | here {m : MethodId} {ms : List MethodId} {p : Program} {fuel : Fuel} {g : Graph}
      {s : Sweep Known} : Graph.ofMethod p m = .ok (.ok g) →
    (analysis oracle).Reaches options fuel g p s → Visits oracle options (m :: ms) p fuel s
  | later {m : MethodId} {ms : List MethodId} {p : Program} {fuel : Fuel} {g : Graph}
      {i : Integration} {changed : Bool} {s : Sweep Known} : Graph.ofMethod p m = .ok (.ok g) →
    (analysis oracle).integrate options fuel g p = .ok i → i.outcome = .ok changed →
    Visits oracle options ms i.program i.fuel s → Visits oracle options (m :: ms) p fuel s

/-! ### From body to body -/

/-- The bodies of methods stay the same statements. -/
theorem Progresses.bodies_eq {g₀ : Graph} (h : Progresses g₀ body s s') :
    s'.program.bodies = s.program.bodies := by
  cases h.moves with
  | pass => rfl
  | replace _ _ hin => exact hin.edited.bodies_eq

theorem bodies_eq_of_reaches {g₀ : Graph}
    (h : Relation.ReflTransGen (Progresses g₀ body) s s') : s'.program.bodies = s.program.bodies := by
  induction h with
  | refl => rfl
  | tail _ hlast ih => exact hlast.bodies_eq.trans ih

theorem ofMethod_eq (hbody : (m, body) ∈ p.bodies) : (∃ decl, p.methods.get m = .ok decl) ∧
    Graph.ofMethod p m = Graph.ofBody p body := by
  obtain ⟨decl, hdecl, hdecl'⟩ := Option.bind_eq_some_iff.1 (Program.mem_bodies_iff.1 hbody)
  have hget := Arena.get_eq_ok_iff.2 hdecl
  refine ⟨⟨decl, hget⟩, ?_⟩
  simp only [Graph.ofMethod, hget, bind, Except.bind, hdecl']

/-- The graph of a method of a tree program is made, or the program assigns to something that is
    neither a variable nor a field. -/
theorem ofMethod_cases (hp : p.IsTree) (hm : m ∈ p.bodies.map Prod.fst) :
    (∃ decl, p.methods.get m = .ok decl) ∧ ((∃ g, Graph.ofMethod p m = .ok (.ok g)) ∨
      ∃ target, p.Misassigns target ∧ Graph.ofMethod p m = .ok (.error (.badTarget target))) := by
  obtain ⟨⟨m', body⟩, hbody, hm'⟩ := List.mem_map.1 hm
  obtain rfl : m' = m := hm'
  obtain ⟨ls, le, hl⟩ := hp.isForest.exists_lists
  obtain ⟨hdecl, heq⟩ := ofMethod_eq hbody
  rw [heq]
  exact ⟨hdecl, hl.ofBody_answers (hl.spans.mem_of_mem_roots (List.mem_map_of_mem hbody))⟩

/-- Inlining in a body that ends leaves a tree program with the same bodies. -/
theorem isTree_of_integrate (hp : p.IsTree) (hg : Graph.ofMethod p m = .ok (.ok g))
    {i : Integration} (h : (analysis .declared).integrate options fuel g p = .ok i) :
    i.program.IsTree ∧ i.program.bodies = p.bodies ∧ ∃ changed, i.outcome = .ok changed := by
  obtain ⟨body, hbody, hg⟩ := exists_ofBody_of_ofMethod hg
  obtain ⟨F, s, hstart, hs, rfl⟩ := exists_of_integrate hp hbody hg h
  exact ⟨(hstart.of_reaches hs).tree, bodies_eq_of_reaches hs, _, rfl⟩

/-- Inlining in bodies of a tree program, the first one taken apart: its graph is not made, or the
    sweep over it comes to an end and inlining goes on from there. -/
theorem optimizeMethods_cons_cases (hp : p.IsTree) {o : Optimization}
    (h : optimizeMethods .declared options (m :: ms) p fuel changed = .ok o) :
    (o.program = p ∧ o.fuel = fuel ∧ ∃ failure, o.outcome = .error failure) ∨
      ∃ g body F s, (m, body) ∈ p.bodies ∧ Sound g body (start g p F fuel) ∧
        Relation.ReflTransGen (Progresses g body) (start g p F fuel) s ∧
        optimizeMethods .declared options ms s.program s.fuel
          (changed || decide (s.rewrites > 0)) = .ok o := by
  obtain ⟨decl, _, h⟩ := Run.bind_eq_ok.1 h
  obtain ⟨lowered, hg, h⟩ := Run.bind_eq_ok.1 h
  cases lowered with
  | error e =>
    cases h
    exact .inl ⟨rfl, rfl, _, rfl⟩
  | ok g =>
    obtain ⟨i, hi, h⟩ := Run.bind_eq_ok.1 h
    obtain ⟨body, hbody, hg⟩ := exists_ofBody_of_ofMethod hg
    obtain ⟨F, s, hstart, hs, rfl⟩ := exists_of_integrate hp hbody hg hi
    exact .inr ⟨g, body, F, s, hbody, hstart, hs, h⟩

/-- What every step of a sweep keeps of the program and the fuel, inlining in bodies of a tree program
    keeps. -/
theorem keeps_fuel_of_optimizeMethods {P : Program → Fuel → Prop}
    (hstep : ∀ {g body s s'}, Progresses g body s s' → Sound g body s →
      body ∈ s.program.bodies.map Prod.snd → P s.program s.fuel → P s'.program s'.fuel)
    (hp : p.IsTree) (hkept : P p fuel) {o : Optimization}
    (h : optimizeMethods .declared options ms p fuel changed = .ok o) : P o.program o.fuel := by
  induction ms generalizing p fuel changed with
  | nil =>
    cases h
    exact hkept
  | cons m ms ih =>
    rcases optimizeMethods_cons_cases hp h with
      ⟨hsame, hfuel, _⟩ | ⟨g, body, F, s, hbody, hstart, hs, h⟩
    · rw [hsame, hfuel]
      exact hkept
    · refine ih (hstart.of_reaches hs).tree ?_ h
      clear h
      induction hs with
      | refl => exact hkept
      | tail hreach hlast ih =>
        refine hstep hlast (hstart.of_reaches hreach) ?_ ih
        rw [bodies_eq_of_reaches hreach]
        exact List.mem_map_of_mem hbody

/-- What every step of a sweep keeps of the program, inlining in bodies of a tree program keeps. -/
theorem keeps_of_optimizeMethods {P : Program → Prop}
    (hstep : ∀ {g body s s'}, Progresses g body s s' → Sound g body s →
      body ∈ s.program.bodies.map Prod.snd → P s.program → P s'.program)
    (hp : p.IsTree) (hkept : P p) {o : Optimization}
    (h : optimizeMethods .declared options ms p fuel changed = .ok o) : P o.program :=
  keeps_fuel_of_optimizeMethods (P := fun q _ => P q) hstep hp hkept h

/-- What inlining in some bodies may leave of a tree program. -/
def Leaves (o : Optimization) : Prop :=
  o.program.IsTree ∧ ∀ failure, o.outcome = .error failure →
    ∃ method target, failure = .lowering method (.badTarget target) ∧ o.program.Misassigns target

theorem optimizeMethods_mono {oracle : Oracle} {o : Optimization} {b : Nat}
    (h : optimizeMethods oracle options ms p fuel changed = .ok o) (hb : options.bound ≤ b) :
    optimizeMethods oracle { options with bound := b } ms p fuel changed = .ok o := by
  induction ms generalizing p fuel changed with
  | nil => exact h
  | cons m ms ih =>
    obtain ⟨decl, hdecl, h⟩ := Run.bind_eq_ok.1 h
    obtain ⟨lowered, hlowered, h⟩ := Run.bind_eq_ok.1 h
    refine Run.bind_eq_ok.2 ⟨decl, hdecl, Run.bind_eq_ok.2 ⟨lowered, hlowered, ?_⟩⟩
    cases lowered with
    | error e => exact h
    | ok g =>
      obtain ⟨i, hi, h⟩ := Run.bind_eq_ok.1 h
      refine Run.bind_eq_ok.2 ⟨i, RewritingAnalysis.integrate_mono hi hb, ?_⟩
      cases houtcome : i.outcome with
      | error e => simpa only [houtcome] using h
      | ok rewritten =>
        simp only [houtcome] at h ⊢
        exact ih h

/-- Inlining in bodies of a tree program ends, the same for all large bounds. -/
theorem exists_optimizeMethods (hp : p.IsTree) (hms : ∀ m ∈ ms, m ∈ p.bodies.map Prod.fst)
    (fuel : Fuel) (changed : Bool) : ∃ B out, (∀ options : Options, B ≤ options.bound →
      optimizeMethods .declared options ms p fuel changed = out) ∧
      (out = .error .overflow ∨ ∃ o, out = .ok o ∧ Leaves o) := by
  induction ms generalizing p fuel changed with
  | nil =>
    refine ⟨0, _, fun options _ => rfl, .inr ⟨_, rfl, hp, fun failure hfailure => ?_⟩⟩
    cases hfailure
  | cons m ms ih =>
    rw [List.forall_mem_cons] at hms
    obtain ⟨⟨decl, hdecl⟩, ⟨g, hg⟩ | ⟨target, htarget, hg⟩⟩ := ofMethod_cases hp hms.1
    · obtain ⟨body, hbody, hg'⟩ := exists_ofBody_of_ofMethod hg
      obtain ⟨F, B, out, hstart, hrun, hout⟩ := exists_integrate hp hbody hg' fuel
      rcases hout with ⟨rfl, _⟩ | ⟨s, hs, rfl⟩
      · refine ⟨B, .error .overflow, fun options hb => ?_, .inl rfl⟩
        rw [optimizeMethods, hdecl, hg]
        change ((analysis .declared).integrate options fuel g p >>= _) = _
        rw [hrun options hb]
        rfl
      · obtain ⟨B', out, hrest, hout⟩ := ih (hstart.of_reaches hs).tree
          (by rw [bodies_eq_of_reaches hs]; exact hms.2) s.fuel (changed || decide (s.rewrites > 0))
        refine ⟨max B B', out, fun options hb => ?_, hout⟩
        rw [← hrest options (by omega), optimizeMethods, hdecl, hg]
        change ((analysis .declared).integrate options fuel g p >>= _) = _
        rw [hrun options (by omega)]
        rfl
    · refine ⟨0, .ok ⟨.error (.lowering decl.name (.badTarget target)), p, fuel⟩, fun options _ => ?_,
        .inr ⟨_, rfl, hp, fun failure hfailure => ?_⟩⟩
      · rw [optimizeMethods, hdecl, hg]
        rfl
      · cases hfailure
        exact ⟨decl.name, target, rfl, htarget⟩

/-! ### Rewrites on the way -/

/-- A rewrite goes through: the statement around the node is found, one slot is substituted, the
    fragment is made, spliced and verified, and the program is a tree program afterwards. -/
def GoesThrough (s : Sweep Known) (n : NodeId) (rewrite : Substitute) : Prop :=
  ∃ stmtNode node stmt copy p₁ q fragment inserted g',
    s.graph.containingStatement n = .ok (some stmtNode) ∧
    s.graph.nodes.get? stmtNode = some node ∧ node.origin = .stmt stmt ∧
    s.program.cloneExpr rewrite.value = .ok (copy, p₁) ∧
    p₁.replaceExpr stmt rewrite.read copy = .ok (1, q) ∧
    Graph.ofExpr q copy = .ok (.ok fragment) ∧
    (s.graph.retarget rewrite.read copy).2.splice n fragment = (.ok inserted, g') ∧
    g'.verify = .ok () ∧ q.IsTree

theorem Sound.goes_through {g₀ : Graph} (h : Sound g₀ body s) {n : NodeId} {rewrite : Substitute}
    (hs : s.Proposes (analysis .declared) n rewrite) : GoesThrough s n rewrite := by
  obtain ⟨ahead, parent, v, E, ls, le, la, hp, _⟩ := h.exists_of_proposes hs
  obtain ⟨q, g', c, lc, oc, f, stmtNode, st, hcontaining, horigin, ⟨p₁, hclone, hreplace⟩, hfragment,
    hsplice, hin⟩ := Inlined.exists_inlined h.tree hp.lists hp.body_mem h.linked h.laidOut hp.mem
    hp.node hp.tracked hp.spans hp.inert
  obtain ⟨node, hnode, horigin⟩ := Option.map_eq_some_iff.1 horigin
  exact ⟨stmtNode, node, st, c, p₁, q, f, _, g', hcontaining, hnode, horigin, hclone, hreplace,
    hfragment, hsplice, hin.spliced.linked.verify_eq, hin.edited.isTree h.tree hp.lists⟩

/-- Every sweep that is reached on the way is a sound one. -/
theorem exists_sound_of_visits (hp : p.IsTree) (hs : Visits .declared options ms p fuel s) :
    ∃ g₀ body, Sound g₀ body s := by
  induction hs with
  | here hg hs =>
    obtain ⟨body, hbody, hg⟩ := exists_ofBody_of_ofMethod hg
    exact ⟨_, body, (sound_of_reaches hp hbody hg hs).1⟩
  | later hg hi _ _ ih => exact ih (isTree_of_integrate hp hg hi).1

/-- Inlining in a tree program ends, and it fails in one way only: something is assigned to that is
    neither a variable nor a field. On the way, the program is a tree program at any time and
    every rewrite that is proposed goes through. -/
theorem optimize_fails_only_at_targets {p : Program} (hp : p.IsTree) (fuel : Fuel) :
    (∃ B out, (∀ options : Options, B ≤ options.bound →
        optimize .declared options fuel p = out) ∧
      (out = .error .overflow ∨ ∃ o, out = .ok o)) ∧
    ∀ options : Options,
      (∀ o, optimize .declared options fuel p = .ok o → o.program.IsTree ∧
        ∀ failure, o.outcome = .error failure → ∃ method target,
          failure = .lowering method (.badTarget target) ∧ o.program.Misassigns target) ∧
      ∀ s, Visits .declared options (p.bodies.map Prod.fst) p fuel s → s.program.IsTree ∧
        ∀ n rewrite, s.Proposes (analysis .declared) n rewrite → GoesThrough s n rewrite := by
  obtain ⟨B, out, hrun, hout⟩ := exists_optimizeMethods hp (fun m hm => hm) fuel false
  refine ⟨⟨B, out, hrun, hout.imp_right fun ⟨o, ho, _⟩ => ⟨o, ho⟩⟩, fun options => ⟨fun o ho => ?_,
    fun s hs => ?_⟩⟩
  · have hlarge := optimizeMethods_mono ho (Nat.le_max_left options.bound B)
    rw [hrun _ (Nat.le_max_right _ _)] at hlarge
    subst hlarge
    rcases hout with hover | ⟨o', ho', hleaves⟩
    · cases hover
    · cases ho'
      exact hleaves
  · obtain ⟨g₀, body, hsound⟩ := exists_sound_of_visits hp hs
    exact ⟨hsound.tree, fun n rewrite hn => hsound.goes_through hn⟩

/-- Two methods: one returns a copy of a constant, the other assigns to a constant. -/
def sampleMisassigned : Program where
  vars := ⟨#[{ name := "i", type := .int, kind := .ofMethod }]⟩
  methods := ⟨#[{ name := "copy", returns := .int, params := [], isPure := true, body := some ⟨2⟩ },
    { name := "assign", returns := .int, params := [], isPure := true, body := some ⟨3⟩ }]⟩
  exprs := ⟨#[.int 1, .var ⟨0⟩, .int 2, .int 3, .assign ⟨2⟩ ⟨3⟩]⟩
  stmts := ⟨#[.declare ⟨0⟩ (some ⟨0⟩), .ret (some ⟨1⟩), .block [⟨0⟩, ⟨1⟩], .expr ⟨4⟩]⟩

theorem optimize_fails_only_at_targets_misassigned :
    sampleMisassigned.IsTree ∧ ∃ o : Optimization,
      optimize .declared { bound := 50 } Fuel.infinite sampleMisassigned = .ok o ∧
      o.outcome = .error (.lowering "assign" (.badTarget (.int 2))) ∧ o.program.IsTree ∧
      o.program.Misassigns (.int 2) := by
  have htree : sampleMisassigned.IsTree :=
    Program.isTree_of_check (show sampleMisassigned.checksAsTree 8 = true by decide)
  have houtcome : (optimize .declared { bound := 50 } Fuel.infinite sampleMisassigned).map
      Optimization.outcome = .ok (.error (.lowering "assign" (.badTarget (.int 2)))) := by
    decide +kernel
  cases h : optimize .declared { bound := 50 } Fuel.infinite sampleMisassigned with
  | error fault =>
    rw [h] at houtcome
    cases houtcome
  | ok o =>
    rw [h] at houtcome
    have ho : o.outcome = .error (.lowering "assign" (.badTarget (.int 2))) :=
      Except.ok.inj houtcome
    obtain ⟨ho', hfailure⟩ :=
      ((optimize_fails_only_at_targets htree Fuel.infinite).2 { bound := 50 }).1 o h
    obtain ⟨method, target, heq, htarget⟩ := hfailure _ ho
    cases heq
    exact ⟨htree, o, rfl, ho, ho', htarget⟩

/-! ### The graph follows the body -/

/-- After inlining in a body, the body can be lowered again, and the graph that was rewritten on the
    way is the graph that lowering makes, up to silent nodes. -/
theorem integrate_erasure_eq {p : Program} {m : MethodId} {g : Graph} (hp : p.IsTree)
    (hg : Graph.ofMethod p m = .ok (.ok g)) {options : Options} {fuel : Fuel} {i : Integration}
    (hi : (analysis .declared).integrate options fuel g p = .ok i) :
    ∃ h, Graph.ofMethod i.program m = .ok (.ok h) ∧ i.graph.erasure = h.erasure := by
  obtain ⟨body, hbody, hg⟩ := exists_ofBody_of_ofMethod hg
  obtain ⟨F, s, hstart, hs, rfl⟩ := exists_of_integrate hp hbody hg hi
  have hsound := hstart.of_reaches hs
  obtain ⟨ls, le, hl, hmem⟩ := hsound.lists
  obtain ⟨h, hh⟩ := hsound.laidOut.exists_ofBody hl hmem
  obtain ⟨hlinked, hlaid⟩ := Graph.ofBody_laidOut hh
  have hbody' : (m, body) ∈ s.program.bodies := by
    rw [bodies_eq_of_reaches hs]
    exact hbody
  exact ⟨h, (ofMethod_eq hbody').2.trans hh,
    hsound.laidOut.erasure_eq hlaid hsound.linked hlinked⟩

/-- Inlining leaves nodes that stand for the constants it copied, which lowering does not make. -/
theorem integrate_erasure_eq_copy : ∃ g i h, Graph.ofMethod sampleCopy ⟨0⟩ = .ok (.ok g) ∧
    (analysis .declared).integrate { bound := 50 } Fuel.infinite g sampleCopy = .ok i ∧
    Graph.ofMethod i.program ⟨0⟩ = .ok (.ok h) ∧ i.graph.order.length = 10 ∧
    i.graph.erasure.1.length = 8 ∧ i.graph.erasure = h.erasure := by
  have htree : sampleCopy.IsTree :=
    Program.isTree_of_check (show sampleCopy.checksAsTree 8 = true by decide)
  obtain ⟨g, hg, hcheck⟩ : ∃ g, Graph.ofMethod sampleCopy ⟨0⟩ = .ok (.ok g) ∧
      ((analysis .declared).integrate { bound := 50 } Fuel.infinite g sampleCopy).map
        (fun i => (i.graph.order.length, i.graph.erasure.1.length)) = .ok (10, 8) :=
    ⟨_, rfl, by decide +kernel⟩
  cases hi : (analysis .declared).integrate { bound := 50 } Fuel.infinite g sampleCopy with
  | error fault =>
    rw [hi] at hcheck
    cases hcheck
  | ok i =>
    rw [hi] at hcheck
    obtain ⟨hlength, hkept⟩ := Prod.mk.inj (Except.ok.inj hcheck)
    obtain ⟨h, hh, heq⟩ := integrate_erasure_eq htree hg hi
    exact ⟨g, i, h, hg, hi, hh, hlength, hkept, heq⟩

end Dataflow.Inlining
