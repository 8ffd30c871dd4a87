import Dataflow.Proofs.VisitingOrder

/-!
# Backward solving

A backward analysis of a body visits the nodes from the last to the first. The last node of a loop
is then visited before anything is known on the edge that leads back up from it, and the initial
fact is taken there, as if the body ended at that node.

* `solve_backward_eq_least_solution`: solving is exact in spite of that where the initial fact is
  below all that can be on the edges back up, in particular if it is below all facts, and where
  there are no loops;
* `solve_backward_ne_least_solution`: in other cases what was taken on the way may stay for ever.
-/

namespace Dataflow

theorem Precedes.reverse {l : List NodeId} {k n : NodeId} (h : Precedes l k n) :
    Precedes l.reverse n k := by
  obtain ⟨before, after, rfl, hk⟩ := h
  obtain ⟨first, between, rfl⟩ := List.append_of_mem hk
  refine ⟨after.reverse ++ n :: between.reverse, first.reverse, by simp, ?_⟩
  exact List.mem_append_right _ List.mem_cons_self

/-- What solving a monotone backward analysis of a body ends with is a solution of its equations.
    It does end, and with the least solution, if there are no loops in the body, or if at each node
    from which all edges lead back up the initial fact is below those that can arrive. -/
theorem solve_backward_eq_least_solution {A : Type} [DecidableEq A] [Fact A]
    (hlaw : Fact.Lawful A) (hbound : Fact.Bounded A) {p : Program} {body : StmtId} {g : Graph}
    (hg : Graph.ofBody p body = .ok (.ok g)) {an : Analysis A} (hdir : an.direction = .backward)
    {f : NodeId → EdgeId → A → A} (hfollows : an.Follows g p f)
    (hmono : ∀ n ∈ g.order, ∀ e ∈ g.inEdges.get n, ∀ a b, Fact.Below a b →
      Fact.Below (f n e a) (f n e b)) :
    (∀ B m, an.solve B g p = .ok m → ∃ φ, m.Holds g φ ∧ an.Solves g f φ) ∧
    (p.LoopFree body ∨
        (∀ n ∈ g.order, (∃ e k, g.Joins e n k ∧ Precedes g.order n k) ∨
          ∀ e k, g.Joins e n k → ∀ a, Fact.Below an.initial (f k e a)) →
      ∃ bound m φ, (∀ B ≥ bound, an.solve B g p = .ok m) ∧ m.Holds g φ ∧ an.Solves g f φ ∧
        ∀ ψ, an.Solves g f ψ → ∀ e edge, g.edges.get? e = some edge →
          Fact.Below (φ e) (ψ e)) := by
  obtain ⟨hlinked, hlaid⟩ := Graph.ofBody_laidOut hg
  have hwired := hlinked.toWired
  have hmem : ∀ n ∈ g.order, n ∈ an.direction.sequence g := fun n hn => Direction.mem_sequence.2 hn
  have hat : ∀ n ∈ an.direction.sequence g, an.FollowsAt g p f n :=
    fun n hn => hfollows n (Direction.mem_sequence.1 hn)
  constructor
  · intro B m h
    rw [an.solve_eq_run hwired.toIndexed] at h
    obtain ⟨w, hrun, h⟩ := Run.bind_eq_ok.1 h
    cases h
    obtain ⟨hw, hq⟩ :=
      Tracking.of_run hwired (an.direction.sequence_nodup hwired.toIndexed) hmem hat hrun
    exact hw.exists_holds hwired hq
  · intro h
    -- Without loops all edges lead down, so facts come up to every node before it is visited.
    have hfounded : ∀ n ∈ g.order, g.outEdges.get n ≠ [] →
        (∃ e k, g.Joins e n k ∧ Precedes g.order n k) ∨
          ∀ e k, g.Joins e n k → ∀ a, Fact.Below an.initial (f k e a) := by
      intro n hn hout
      rcases h with hfree | h
      · obtain ⟨e, he⟩ := List.exists_mem_of_ne_nil _ hout
        obtain ⟨k, hjoins⟩ := (hwired.mem_outEdges n e).1 he
        exact .inl ⟨e, k, hjoins, hlaid.precedes_of_joins hwired hfree hjoins⟩
      · exact h n hn
    let _ := hlaw.semilattice
    have _ := hbound.wellFoundedGT hlaw
    have hf := hlaw.growingFrom hwired (an.direction.sequence_nodup hwired.toIndexed) hmem
      (fun n hn hout => by
        rw [hdir] at hout ⊢
        exact (hfounded n hn hout).imp_left fun ⟨e, k, hjoins, hprec⟩ =>
          ⟨e, k, hjoins, hprec.reverse⟩)
      fun n hn e he => hmono n hn e (by rwa [hdir] at he)
    obtain ⟨bound, w, φ, hrun, _, _, hφ⟩ := hf.exists_least hwired hmem hat
    refine ⟨bound, w.facts, φ, fun B hB => ?_, hφ⟩
    rw [an.solve_eq_run hwired.toIndexed]
    exact Run.bind_eq_ok.2 ⟨w, hrun B hB, rfl⟩

/-! ### Whether a variable is live -/

/-- What follows from a fact at a node, by the kind of the node. -/
def Graph.following {A : Type} (g : Graph) (after : NodeKind → A → A) (n : NodeId) (_ : EdgeId)
    (a : A) : A :=
  match g.nodes.get? n with
  | some node => after node.kind a
  | none => a

theorem Graph.following_monotone {A : Type} [Fact A] (g : Graph) {after : NodeKind → A → A}
    (h : ∀ kind a b, Fact.Below a b → Fact.Below (after kind a) (after kind b)) (n : NodeId)
    (e : EdgeId) (a b : A) (hab : Fact.Below a b) :
    Fact.Below (g.following after n e a) (g.following after n e b) := by
  unfold Graph.following
  split
  · exact h _ a b hab
  · exact hab

/-- A probe that treats no label apart puts what follows at a node on all edges there. -/
theorem Probe.analysis_follows {A : Type} [DecidableEq A] [Fact A] {probe : Probe}
    (hskip : probe.skip = none) (hunset : probe.unset = none) (initial : A)
    (after : NodeKind → A → A) (vars : A → Option (HandleSet "var")) {g : Graph} (hg : g.Linked)
    (p : Program) :
    (probe.analysis initial after vars).toAnalysis.Follows g p (g.following after) := by
  intro n hn m
  obtain ⟨node, hnode⟩ := Arena.exists_get?_of_lt (hg.allocated n hn)
  have hkind : g.kind n = .ok node.kind :=
    Run.bind_eq_ok.2 ⟨node, Arena.get_eq_ok_iff.2 hnode, rfl⟩
  have hspread : ∀ a b : A, probe.spread g a b = fun _ => some b := by
    intro a b
    funext e
    rw [spread, hskip, hunset]
    split <;> rfl
  refine ⟨_, List.Perm.refl _, Run.bind_eq_ok.2 ⟨_, Run.bind_eq_ok.2 ⟨_, hkind, rfl⟩, ?_⟩⟩
  simp only [hspread, Graph.following, hnode]
  rfl

/-- Whether the first variable will be read before it is written, as a bit, by what is so after a
    node. -/
def liveBefore : NodeKind → Bits → Bits
  | .write v _, a => if v = ⟨0⟩ then ⟨0⟩ else a
  | .read v, a | .readWrite v, a => if v = ⟨0⟩ then ⟨1⟩ else a
  | _, a => a

theorem liveBefore_monotone (kind : NodeKind) (a b : Bits) (h : Fact.Below a b) :
    Fact.Below (liveBefore kind a) (liveBefore kind b) := by
  have hif : ∀ (v : VarId) (c : Bits), Fact.Below (if v = ⟨0⟩ then c else a)
      (if v = ⟨0⟩ then c else b) := by
    intro v c
    split
    · exact Bits.lawful.join_self c
    · exact h
  unfold liveBefore
  split
  · exact hif _ _
  · exact hif _ _
  · exact hif _ _
  · exact h

/-- The analysis of this bit, by what it is at the end. -/
def liveFirst (atEnd : Bits) : Analysis Bits :=
  (Probe.analysis { direction := .backward } atEnd liveBefore fun _ => none).toAnalysis

/-- A write that comes after a loop. -/
def sampleBehind : Program where
  vars := ⟨#[{ name := "v", type := .int, kind := .ofMethod },
    { name := "c", type := .int, kind := .ofMethod }]⟩
  exprs := ⟨#[.int 1, .var ⟨1⟩]⟩
  stmts := ⟨#[.declare ⟨0⟩ (some ⟨0⟩), .block [], .loop ⟨1⟩ ⟨1⟩, .block [⟨2⟩, ⟨0⟩]]⟩

/-- In its graph the last node of the loop is one from which all edges lead back up. -/
theorem solve_backward_eq_least_solution_loop : ∃ g, Graph.ofBody sampleBehind ⟨3⟩ = .ok (.ok g) ∧
    ∃ bound m φ, (∀ B ≥ bound, (liveFirst ⟨0⟩).solve B g sampleBehind = .ok m) ∧ m.Holds g φ ∧
      (liveFirst ⟨0⟩).Solves g (g.following liveBefore) φ ∧
      ∀ ψ, (liveFirst ⟨0⟩).Solves g (g.following liveBefore) ψ →
        ∀ e edge, g.edges.get? e = some edge → Fact.Below (φ e) (ψ e) := by
  obtain ⟨g, hg⟩ : ∃ g, Graph.ofBody sampleBehind ⟨3⟩ = .ok (.ok g) := ⟨_, rfl⟩
  obtain ⟨hlinked, _⟩ := Graph.ofBody_laidOut hg
  have hfollows : (liveFirst ⟨0⟩).Follows g sampleBehind (g.following liveBefore) :=
    Probe.analysis_follows rfl rfl _ _ _ hlinked _
  exact ⟨g, hg, (solve_backward_eq_least_solution Bits.lawful Bits.bounded hg rfl hfollows
    fun n _ e _ => g.following_monotone liveBefore_monotone n e).2
    (.inr fun _ _ => .inr fun _ _ _ _ => congrArg Bits.mk UInt32.zero_or)⟩

/-- The facts that solving ends with if the first variable is live at the end. -/
def factsBehind : FactMap Bits where
  initial := ⟨1⟩
  facts := ⟨#[some ⟨1⟩, some ⟨1⟩, some ⟨1⟩, some ⟨1⟩, some ⟨1⟩, some ⟨0⟩, some ⟨0⟩, some ⟨1⟩]⟩

/-- The variable is written after the loop before it is read, so it is not live in the loop. But
    the fact at the end is for a moment also the one behind the last node of the loop, and goes
    around it from there. -/
theorem solve_backward_ne_least_solution : Fact.Lawful Bits ∧ Fact.Bounded Bits ∧
    (liveFirst ⟨1⟩).direction = .backward ∧
    ∃ g φ, Graph.ofBody sampleBehind ⟨3⟩ = .ok (.ok g) ∧
    (liveFirst ⟨1⟩).Follows g sampleBehind (g.following liveBefore) ∧
    (∀ n e a b, Fact.Below a b →
      Fact.Below (g.following liveBefore n e a) (g.following liveBefore n e b)) ∧
    (liveFirst ⟨1⟩).Solves g (g.following liveBefore) φ ∧
    (liveFirst ⟨1⟩).solve 20 g sampleBehind = .ok factsBehind ∧
    factsBehind.get ⟨4⟩ = some ⟨1⟩ ∧ φ ⟨4⟩ = ⟨0⟩ ∧ ¬ Fact.Below (⟨1⟩ : Bits) ⟨0⟩ := by
  obtain ⟨g, hg, hsolves, hsolve⟩ : ∃ g, Graph.ofBody sampleBehind ⟨3⟩ = .ok (.ok g) ∧
      (∀ n ∈ g.order, ∀ e ∈ g.inEdges.get n, (if e = ⟨7⟩ then ⟨1⟩ else ⟨0⟩ : Bits) =
        g.following liveBefore n e (Fact.joinAll ⟨1⟩ ((g.outEdges.get n).map fun d =>
          if d = ⟨7⟩ then ⟨1⟩ else ⟨0⟩))) ∧
      (liveFirst ⟨1⟩).solve 20 g sampleBehind = .ok factsBehind :=
    ⟨_, rfl, by decide +kernel, by decide +kernel⟩
  obtain ⟨hlinked, _⟩ := Graph.ofBody_laidOut hg
  exact ⟨Bits.lawful, Bits.bounded, rfl, g, fun e => if e = ⟨7⟩ then ⟨1⟩ else ⟨0⟩, hg,
    Probe.analysis_follows rfl rfl _ _ _ hlinked _, g.following_monotone liveBefore_monotone,
    hsolves, hsolve, rfl, rfl,
    show (Fact.join ⟨1⟩ ⟨0⟩ : Bits) ≠ ⟨0⟩ by decide⟩

end Dataflow
