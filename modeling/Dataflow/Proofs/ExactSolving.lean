import Dataflow.Probe
import Dataflow.Proofs.Building
import Mathlib.Order.OrderIsoNat

/-!
# Forward solving is exact

For facts that form a join-semilattice without infinite ascending chains, solving a
monotone forward analysis ends, and facts only grow on the way, on every graph without
ports in which a node that is entered at all is entered from a node strictly before it.
It ends with the least solution of the equations of the analysis if all edges leave nodes
in order, and only then: an edge that was added to a node after that node was replaced is
never visited. The graphs of method bodies are such graphs.

* `Fact.Lawful`, `Fact.Below`, `Fact.Bounded`: what is asked of the facts, in terms of `join`;
* `Graph.EnteredInOrder`: what is asked of the graph;
* `solve_eq_least_solution`: the statement above;
* `solve_stale_ne_least_solution`: a graph with an edge from a node that was replaced.
-/

namespace Dataflow

namespace Fact

variable {A : Type}

/-- A join-semilattice: joining is idempotent, commutative and associative. -/
structure Lawful (A : Type) [Fact A] : Prop where
  join_self : ∀ a : A, join a a = a
  join_comm : ∀ a b : A, join a b = join b a
  join_assoc : ∀ a b c : A, join (join a b) c = join a (join b c)

/-- The order of facts: joining `a` to `b` adds nothing to it. -/
def Below [Fact A] (a b : A) : Prop := join a b = b

/-- There are no infinite ascending chains of facts. -/
def Bounded (A : Type) [Fact A] : Prop :=
  ¬ ∃ chain : Nat → A, ∀ i, Below (chain i) (chain (i + 1)) ∧ chain i ≠ chain (i + 1)

/-- The semilattice of facts whose supremum is the join. -/
@[reducible] def Lawful.semilattice [Fact A] (h : Lawful A) : SemilatticeSup A :=
  letI : Max A := ⟨join⟩
  SemilatticeSup.mk' h.join_comm h.join_assoc h.join_self

theorem Bounded.wellFounded [Fact A] (h : Bounded A) :
    WellFounded fun b a : A => Below a b ∧ a ≠ b := by
  rw [wellFounded_iff_isEmpty_descending_chain, isEmpty_subtype]
  exact fun chain hchain => h ⟨chain, hchain⟩

/-- Without infinite ascending chains, nothing is above itself by way of others. -/
theorem Bounded.wellFoundedGT [Fact A] (hlaw : Lawful A) (h : Bounded A) :
    letI := hlaw.semilattice
    WellFoundedGT (Set.univ : Set A) :=
  letI := hlaw.semilattice
  ⟨Subrelation.wf (fun {b a} (hab : a.1 < b.1) => ⟨hab.le, hab.ne⟩)
    (InvImage.wf Subtype.val h.wellFounded)⟩

end Fact

/-! ### Nodes entered in order -/

/-- Each node that is entered at all is entered from a node strictly before it in order. -/
def Graph.EnteredInOrder (g : Graph) : Prop :=
  ∀ n, g.inEdges.get n ≠ [] → ∃ e k, g.Joins e k n ∧ Precedes g.order k n

namespace Graph

variable {g : Graph} {e : EdgeId} {k n : NodeId}

/-- No edge enters a node that is not in order. -/
theorem EnteredInOrder.target_mem (h : g.EnteredInOrder) (hg : g.Indexed) (hjoins : g.Joins e k n) :
    n ∈ g.order := by
  have he : e ∈ g.inEdges.get n := (hg.mem_inEdges n e).2 ⟨k, hjoins⟩
  obtain ⟨_, _, _, before, after, horder, _⟩ := h n (List.ne_nil_of_mem he)
  rw [horder]
  exact List.mem_append_right _ List.mem_cons_self

/-- All edges join nodes in order if they leave such nodes. -/
theorem EnteredInOrder.wired (h : g.EnteredInOrder) (hg : g.Consistent) (hin : g.inPorts = [])
    (hout : g.outPorts = []) (hleave : ∀ e k n, g.Joins e k n → k ∈ g.order) : g.Wired := by
  refine ⟨hg.indexed hin hout, fun e edge hedge => ?_⟩
  obtain ⟨k, n, hk, hn⟩ := hg.exists_ends hin hout hedge
  have hjoins := joins_of_ends hedge hk hn
  exact ⟨k, hleave e k n hjoins, n, h.target_mem (hg.indexed hin hout) hjoins, hjoins⟩

/-- The graph of a body has no ports, its edges join nodes in order, and each node is entered from
    one before it. -/
theorem ofBody_enteredInOrder {p : Program} {body : StmtId}
    (h : ofBody p body = .ok (.ok g)) : g.inPorts = [] ∧ g.outPorts = [] ∧ g.EnteredInOrder ∧
      ∀ e k n, g.Joins e k n → k ∈ g.order := by
  obtain ⟨hlinked, hlaid⟩ := ofBody_laidOut h
  refine ⟨hlinked.inPorts, hlinked.outPorts, fun n hn => ?_,
    fun _ _ _ hjoins => hlinked.source_mem hjoins⟩
  exact hlaid.ordered hlinked.toWired n
    (Direction.forward.mem_order_of_inputs hlinked.toWired hn) hn

end Graph

/-! ### Solving -/

section Solving

variable {A : Type} [Fact A] {an : Analysis A} {g : Graph} {p : Program}
  {f : NodeId → EdgeId → A → A}

/-- Monotone functions make facts grow along the order of such a graph. -/
theorem Fact.Lawful.growingFrom_order (hlaw : Fact.Lawful A) (hdir : an.direction = .forward)
    (hg : g.Indexed) (hord : g.EnteredInOrder)
    (hmono : ∀ n ∈ g.order, ∀ e ∈ g.outEdges.get n, ∀ a b, Fact.Below a b →
      Fact.Below (f n e a) (f n e b)) :
    letI := hlaw.semilattice
    GrowingFrom an g f Set.univ g.order :=
  letI := hlaw.semilattice
  { join := fun _ _ => rfl
    indexed := hg
    nodup := hg.order_nodup
    closed := fun n _ e k hlead => by
      rw [hdir] at hlead
      exact hord.target_mem hg hlead
    founded := fun n _ hin => by
      rw [hdir] at hin ⊢
      exact .inl (hord n hin)
    monotone := fun n hn e he a b hab => by
      rw [hdir] at he
      exact hmono n hn e he a b hab
    initial_mem := trivial
    sup_mem := fun _ _ _ _ => trivial
    mem := fun _ _ _ _ _ _ => trivial }

/-- When nothing is left to visit, the edges that leave nodes of the sequence hold facts, and no
    others do. -/
theorem RisingFrom.isSome_iff [SemilatticeSup A] {S : Set A} {seq : List NodeId} {w : Worklist A}
    (h : RisingFrom an g f S seq w) (hg : g.Indexed) (hq : w.queue = []) {e : EdgeId}
    {k n : NodeId} (hlead : an.direction.Leads g e k n) : (w.facts.get e).isSome ↔ k ∈ seq := by
  constructor
  · intro hsome
    obtain ⟨a, ha⟩ := Option.isSome_iff_exists.1 hsome
    obtain ⟨k', hk', _, _, hlead', _⟩ := h.on_edge e a ha
    exact (hlead'.unique hlead).1 ▸ hk'
  · intro hk
    rw [h.settled k hk (by simp [hq]) e ((an.direction.mem_outputs_iff hg).2 ⟨n, hlead⟩)]
    rfl

end Solving

/-- Solving a monotone forward analysis ends, and on the way every fact is above the one that it
    overwrites, where each node that is entered at all is entered from a node strictly before it.
    What it ends with is the least solution if and only if all edges leave nodes in order. The
    graph of every body is of this sort. -/
theorem solve_eq_least_solution :
    (∀ {A : Type} [DecidableEq A] [Fact A], Fact.Lawful A → Fact.Bounded A →
      ∀ {an : Analysis A} {g : Graph} {p : Program} {f : NodeId → EdgeId → A → A},
        an.direction = .forward → g.Built → g.inPorts = [] → g.outPorts = [] →
        g.EnteredInOrder → an.Follows g p f →
        (∀ n ∈ g.order, ∀ e ∈ g.outEdges.get n, ∀ a b, Fact.Below a b →
          Fact.Below (f n e a) (f n e b)) →
        (∃ m bound, (∀ B ≥ bound, an.solve B g p = .ok m) ∧
          ((∀ e k n, g.Joins e k n → k ∈ g.order) ↔
            ∃ φ, (∀ e edge, g.edges.get? e = some edge → m.get e = some (φ e)) ∧
              an.Solves g f φ ∧
              ∀ ψ, an.Solves g f ψ → ∀ e edge, g.edges.get? e = some edge →
                Fact.Below (φ e) (ψ e))) ∧
        ∀ u v n rest, Worklist.Reaches an g p (an.start g) u → u.queue = n :: rest →
          u.visit an g p n rest = .ok v →
          ∀ e a, u.facts.get e = some a → ∃ b, v.facts.get e = some b ∧ Fact.Below a b) ∧
    ∀ p body g, Graph.ofBody p body = .ok (.ok g) →
      g.Built ∧ g.inPorts = [] ∧ g.outPorts = [] ∧ g.EnteredInOrder ∧
        ∀ e k n, g.Joins e k n → k ∈ g.order := by
  refine ⟨?_, fun p body g h => ⟨Graph.ofBody_built h, Graph.ofBody_enteredInOrder h⟩⟩
  intro A _ _ hlaw hbound an g p f hdir hbuilt hin hout hord hfollows hmono
  let _ := hlaw.semilattice
  have _ := hbound.wellFoundedGT hlaw
  have hg := hbuilt.consistent.indexed hin hout
  have hf := hlaw.growingFrom_order hdir hg hord hmono
  have hstart : an.start g = an.startFrom g.order := by
    rw [Analysis.start, hdir]
    rfl
  constructor
  · obtain ⟨bound, w, hw, hq, hrun⟩ := hf.exists_run hfollows
    refine ⟨w.facts, bound, fun B hB => ?_, fun hleave => ?_, ?_⟩
    · rw [an.solve_eq_run hg, hstart, hrun B hB]
      rfl
    · have hwired := hord.wired hbuilt.consistent hin hout hleave
      obtain ⟨φ, hφ, hsolves, hleast⟩ := hw.exists_holds hwired (fun _ hn => hn) hq
      exact ⟨φ, fun e edge he => hφ.get he, hsolves, hleast⟩
    · -- An edge that holds a fact leaves a node that was visited.
      rintro ⟨φ, hφ, _⟩ e k n hjoins
      have hlead : an.direction.Leads g e k n := by
        rw [hdir]
        exact hjoins
      obtain ⟨label, he⟩ := hjoins
      refine (hw.isSome_iff hg hq hlead).1 ?_
      rw [hφ e _ he]
      rfl
  · intro u v n rest hu hq hv
    have hrise := hf.rising_of_follows hfollows (hstart ▸ hu)
    obtain ⟨v', hv', _, hraise, _⟩ := hf.exists_visit hfollows hrise hq
    cases hv.symm.trans hv'
    exact hraise

/-! ### An analysis of this sort -/

namespace Bits

theorem lawful : Fact.Lawful Bits where
  join_self a := congrArg Bits.mk (UInt32.or_self (a := a.bits))
  join_comm a b := congrArg Bits.mk (UInt32.or_comm a.bits b.bits)
  join_assoc a b c := congrArg Bits.mk (UInt32.or_assoc a.bits b.bits c.bits)

/-- Of two distinct sets of bits the larger one is the larger number. -/
theorem toNat_lt {a b : Bits} (h : Fact.Below a b) (hne : a ≠ b) :
    a.bits.toNat < b.bits.toNat := by
  have hor : a.bits ||| b.bits = b.bits := congrArg Bits.bits h
  refine lt_of_le_of_ne ?_ fun heq => hne ?_
  · rw [← hor, UInt32.toNat_or]
    exact Nat.left_le_or
  · cases a
    cases b
    exact congrArg Bits.mk (UInt32.toNat_inj.1 heq)

theorem bounded : Fact.Bounded Bits := by
  rintro ⟨chain, hchain⟩
  have hgrow : ∀ i, i ≤ (chain i).bits.toNat := by
    intro i
    induction i with
    | zero => exact Nat.zero_le _
    | succ i ih => exact Nat.lt_of_le_of_lt ih (toNat_lt (hchain i).1 (hchain i).2)
  exact absurd (UInt32.toNat_lt (chain (2 ^ 32)).bits) (Nat.not_lt.2 (hgrow (2 ^ 32)))

end Bits

/-- A loop that writes its own condition. -/
def sampleLoop : Program where
  vars := ⟨#[{ name := "x", type := .int, kind := .ofMethod }]⟩
  exprs := ⟨#[.var ⟨0⟩, .var ⟨0⟩, .int 1, .assign ⟨1⟩ ⟨2⟩]⟩
  stmts := ⟨#[.loop ⟨0⟩ ⟨1⟩, .expr ⟨3⟩]⟩

/-- The nodes passed, of those whose handle is a bit. -/
def passedAfter (n : NodeId) (_ : EdgeId) (a : Bits) : Bits :=
  ⟨a.bits ||| 1 <<< UInt32.ofNat n.index⟩

/-- The nodes passed on some way to an edge, from none of them on. -/
def passed : Analysis Bits :=
  .ofTransfer .forward ⟨0⟩ fun n _ _ a => .ok fun e => some (passedAfter n e a)

theorem passedAfter_monotone (n : NodeId) (e : EdgeId) (a b : Bits) (h : Fact.Below a b) :
    Fact.Below (passedAfter n e a) (passedAfter n e b) := by
  have hor : a.bits ||| b.bits = b.bits := congrArg Bits.bits h
  let bit : UInt32 := 1 <<< UInt32.ofNat n.index
  refine congrArg Bits.mk ?_
  change (a.bits ||| bit) ||| (b.bits ||| bit) = b.bits ||| bit
  rw [UInt32.or_assoc, ← UInt32.or_assoc bit, UInt32.or_comm bit, UInt32.or_assoc b.bits,
    UInt32.or_self, ← UInt32.or_assoc, hor]

theorem passed_follows (g : Graph) (p : Program) : passed.Follows g p passedAfter :=
  fun _ _ _ => ⟨_, List.Perm.refl _, rfl⟩

theorem solve_eq_least_solution_loop : ∃ g, Graph.ofBody sampleLoop ⟨0⟩ = .ok (.ok g) ∧
    g.Built ∧ g.inPorts = [] ∧ g.outPorts = [] ∧ g.EnteredInOrder ∧
    ∃ m bound, (∀ B ≥ bound, passed.solve B g sampleLoop = .ok m) ∧
      ∃ φ, (∀ e edge, g.edges.get? e = some edge → m.get e = some (φ e)) ∧
        passed.Solves g passedAfter φ ∧
        ∀ ψ, passed.Solves g passedAfter ψ → ∀ e edge, g.edges.get? e = some edge →
          Fact.Below (φ e) (ψ e) := by
  obtain ⟨g, hg⟩ : ∃ g, Graph.ofBody sampleLoop ⟨0⟩ = .ok (.ok g) := ⟨_, rfl⟩
  obtain ⟨hbuilt, hin, hout, hord, hleave⟩ := solve_eq_least_solution.2 _ _ g hg
  obtain ⟨⟨m, bound, hsolve, hexact⟩, _⟩ := solve_eq_least_solution.1 Bits.lawful Bits.bounded rfl
    hbuilt hin hout hord (passed_follows g sampleLoop) fun n _ e _ => passedAfter_monotone n e
  exact ⟨g, hg, hbuilt, hin, hout, hord, m, bound, hsolve, hexact.1 hleave⟩

/-- Three nodes in a row, the first of which was replaced by another one, and an edge that was
    added after that from the replaced node to the second one of the row. -/
def sampleStale : Graph :=
  let row := ((((({} : Graph).addNode { kind := .nop }).addNode { kind := .nop }).addNode
    { kind := .nop }).addEdge ⟨0⟩ ⟨1⟩ none).addEdge ⟨1⟩ ⟨2⟩ none
  let other : Graph :=
    { ({} : Graph).addNode { kind := .nop } with entry := some ⟨0⟩, exit := some ⟨0⟩ }
  (row.splice ⟨0⟩ other).2.addEdge ⟨0⟩ ⟨1⟩ none

/-- There are edges at the first four nodes only. -/
theorem sampleStale_edges_of_le {n : NodeId} (hn : 4 ≤ n.index) :
    sampleStale.inEdges.get n = [] ∧ sampleStale.outEdges.get n = [] := by
  have hin : sampleStale.inEdges.slots.size ≤ 4 := by decide
  have hout : sampleStale.outEdges.slots.size ≤ 4 := by decide
  exact ⟨SideTable.get_of_size_le (hin.trans hn), SideTable.get_of_size_le (hout.trans hn)⟩

theorem sampleStale_built : sampleStale.Built :=
  .addEdge _ _ _ (.splice _
    (.addEdge _ _ _ (.addEdge _ _ _ (.addNode _ (.addNode _ (.addNode _ .empty)))))
    (.withEnds _ _ (.addNode _ .empty)))

theorem sampleStale_enteredInOrder : sampleStale.EnteredInOrder := by
  intro n hn
  obtain hlt | hle := Nat.lt_or_ge n.index 4
  · obtain ⟨i⟩ := n
    match i, hlt with
    | 0, _ => exact absurd rfl hn
    | 1, _ => exact ⟨⟨0⟩, ⟨3⟩, ⟨none, rfl⟩, [⟨3⟩], [⟨2⟩], rfl, by simp⟩
    | 2, _ => exact ⟨⟨1⟩, ⟨1⟩, ⟨none, rfl⟩, [⟨3⟩, ⟨1⟩], [], rfl, by simp⟩
    | 3, _ => exact absurd rfl hn
  · exact absurd (sampleStale_edges_of_le hle).1 hn

/-- The facts that solving ends with there. -/
def factsStale : FactMap Bits where
  initial := ⟨0⟩
  facts := ⟨#[some ⟨8⟩, some ⟨10⟩]⟩

/-- The facts that solve the equations of all edges. -/
def solutionStale (e : EdgeId) : Bits :=
  if e = ⟨0⟩ then ⟨8⟩ else if e = ⟨1⟩ then ⟨11⟩ else ⟨1⟩

/-- The node that was replaced is not visited, so that its edge holds no fact, although by the
    equations it holds that this node was passed, and the edge behind it holds that, too. -/
theorem solve_stale_ne_least_solution : Fact.Lawful Bits ∧ Fact.Bounded Bits ∧
    passed.direction = .forward ∧ sampleStale.Built ∧ sampleStale.inPorts = [] ∧
    sampleStale.outPorts = [] ∧ sampleStale.EnteredInOrder ∧
    passed.Follows sampleStale {} passedAfter ∧
    (∀ n e a b, Fact.Below a b → Fact.Below (passedAfter n e a) (passedAfter n e b)) ∧
    (∀ B ≥ 3, passed.solve B sampleStale {} = .ok factsStale) ∧
    passed.SolvesAll sampleStale passedAfter solutionStale ∧
    (∀ ψ, passed.SolvesAll sampleStale passedAfter ψ → ∀ e edge,
      sampleStale.edges.get? e = some edge → solutionStale e = ψ e) ∧
    sampleStale.Joins ⟨2⟩ ⟨0⟩ ⟨1⟩ ∧ factsStale.get ⟨2⟩ = none ∧
    factsStale.get ⟨1⟩ = some ⟨10⟩ ∧ solutionStale ⟨1⟩ = ⟨11⟩ := by
  refine ⟨Bits.lawful, Bits.bounded, rfl, sampleStale_built, rfl, rfl, sampleStale_enteredInOrder,
    passed_follows _ _, passedAfter_monotone, fun B hB => ?_, fun n e he => ?_, fun ψ hψ => ?_,
    ⟨none, rfl⟩, rfl, rfl, rfl⟩
  · have hrun : Worklist.run passed sampleStale {} 3 (passed.start sampleStale) =
        .ok { facts := factsStale, queue := [], updates := 2 } := rfl
    rw [passed.solve_eq_run (sampleStale_built.consistent.indexed rfl rfl),
      Worklist.run_mono hrun hB]
    rfl
  · obtain hlt | hle := Nat.lt_or_ge n.index 4
    · have hall : ∀ i < 4, ∀ e ∈ sampleStale.outEdges.get ⟨i⟩, solutionStale e =
          passedAfter ⟨i⟩ e (Fact.joinAll ⟨0⟩ ((sampleStale.inEdges.get ⟨i⟩).map solutionStale)) := by
        decide +kernel
      exact hall n.index hlt e he
    · change e ∈ sampleStale.outEdges.get n at he
      rw [(sampleStale_edges_of_le hle).2] at he
      cases he
  · -- Each edge holds what follows from those before it.
    have h₀ : ψ ⟨0⟩ = passedAfter ⟨3⟩ ⟨0⟩ ⟨0⟩ := hψ ⟨3⟩ ⟨0⟩ (by decide)
    have h₂ : ψ ⟨2⟩ = passedAfter ⟨0⟩ ⟨2⟩ ⟨0⟩ := hψ ⟨0⟩ ⟨2⟩ (by decide)
    have h₁ : ψ ⟨1⟩ = passedAfter ⟨1⟩ ⟨1⟩ (Fact.join (ψ ⟨0⟩) (ψ ⟨2⟩)) := hψ ⟨1⟩ ⟨1⟩ (by decide)
    rw [h₀, h₂] at h₁
    intro e edge he
    obtain ⟨i⟩ := e
    match i, Arena.get?_eq_some_lt he with
    | 0, _ =>
      rw [h₀]
      decide
    | 1, _ =>
      rw [h₁]
      decide
    | 2, _ =>
      rw [h₂]
      decide

end Dataflow
