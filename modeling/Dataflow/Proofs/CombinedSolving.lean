import Dataflow.Proofs.Pairing
import Dataflow.Proofs.VisitingOrder

/-!
# Solving analyses together

Two monotone forward analyses solved as one have other visits than either has alone: a node is
visited again as soon as a fact of either one changes. The facts that they end with are the same,
since a least solution of the equations of both is a pair of least solutions.

* `Analysis.solves_pair`: a solution for the pair is a pair of solutions;
* `Analysis.MonotoneBy.exists_solve_pair`: solving the pair ends with the two results, edge by edge;
* `Combination`: analyses combined by nesting, solved together and solved apart.
-/

namespace Dataflow

variable {A B : Type}

/-! ### Pairs of facts -/

namespace Fact

variable [Fact A] [Fact B]

theorem Lawful.eq_of_below (h : Lawful A) {a b : A} (hab : Below a b) (hba : Below b a) : a = b :=
  hba.symm.trans ((h.join_comm b a).trans hab)

theorem below_prod {a b : A × B} : Below a b ↔ Below a.1 b.1 ∧ Below a.2 b.2 := Prod.ext_iff

theorem Lawful.prod (hA : Lawful A) (hB : Lawful B) : Lawful (A × B) where
  join_self a := Prod.ext (hA.join_self a.1) (hB.join_self a.2)
  join_comm a b := Prod.ext (hA.join_comm a.1 b.1) (hB.join_comm a.2 b.2)
  join_assoc a b c := Prod.ext (hA.join_assoc a.1 b.1 c.1) (hB.join_assoc a.2 b.2 c.2)

/-- A pair that rises does so on one side, and stays as it is on the other or rises there too. -/
theorem Bounded.prod (hA : Bounded A) (hB : Bounded B) : Bounded (A × B) := by
  rintro ⟨chain, hchain⟩
  have hwf : WellFounded fun b a : A × B => Below a b ∧ a ≠ b := by
    refine Subrelation.wf ?_ (WellFounded.prod_lex hA.wellFounded hB.wellFounded)
    rintro ⟨b, b'⟩ ⟨a, a'⟩ ⟨hbelow, hne⟩
    obtain ⟨hab, hab'⟩ := below_prod.1 hbelow
    by_cases heq : a = b
    · subst heq
      exact .right _ ⟨hab', fun heq' => hne (congrArg _ heq')⟩
    · exact .left _ _ ⟨hab, heq⟩
  exact (wellFounded_iff_isEmpty_descending_chain.1 hwf).false ⟨chain, hchain⟩

end Fact

namespace Analysis

/-! ### Solutions for two analyses -/

section Solves

variable [Fact A] [Fact B] {first : Analysis A} {second : Analysis B} {g : Graph}
  {f : NodeId → EdgeId → A → A} {h : NodeId → EdgeId → B → B}

/-- A solution for two analyses as one is a solution for each. -/
theorem solves_pair [DecidableEq A] [DecidableEq B] (hdir : second.direction = first.direction)
    {φ : EdgeId → A × B} :
    (first.pair second).Solves g (fun n e a => (f n e a.1, h n e a.2)) φ ↔
      first.Solves g f (fun e => (φ e).1) ∧ second.Solves g h fun e => (φ e).2 := by
  have hjoin₁ : ∀ n, Fact.joinAll first.initial ((first.direction.inputs g n).map fun e => (φ e).1) =
      (Fact.joinAll (first.pair second).initial ((first.direction.inputs g n).map φ)).1 := by
    intro n
    rw [← Fact.map_joinAll Prod.fst fun _ _ => rfl, List.map_map]
    rfl
  have hjoin₂ : ∀ n,
      Fact.joinAll second.initial ((first.direction.inputs g n).map fun e => (φ e).2) =
        (Fact.joinAll (first.pair second).initial ((first.direction.inputs g n).map φ)).2 := by
    intro n
    rw [← Fact.map_joinAll Prod.snd fun _ _ => rfl, List.map_map]
    rfl
  constructor
  · intro hφ
    refine ⟨fun n hn e he => ?_, fun n hn e he => ?_⟩
    · rw [hjoin₁]
      exact congrArg Prod.fst (hφ n hn e he)
    · rw [hdir] at he ⊢
      rw [hjoin₂]
      exact congrArg Prod.snd (hφ n hn e he)
  · rintro ⟨hfirst, hsecond⟩ n hn e he
    rw [Solves, hdir] at hsecond
    refine Prod.ext ((hfirst n hn e he).trans ?_) ((hsecond n hn e he).trans ?_)
    · rw [hjoin₁]
      rfl
    · rw [hjoin₂]
      rfl

end Solves

/-- Facts that solving ends with are the same within all bounds. -/
theorem eq_of_solve {an : Analysis A} {g : Graph} {p : Program} {bound bound' : Nat} {m m' : FactMap A}
    (hm : ∀ k ≥ bound, an.solve k g p = .ok m) (hm' : ∀ k ≥ bound', an.solve k g p = .ok m') :
    m = m' :=
  Except.ok.inj ((hm _ (le_max_left bound bound')).symm.trans (hm' _ (le_max_right bound bound')))

/-- A forward analysis, over a join-semilattice without infinite ascending chains, that puts
    monotone functions of what arrives at a node on the edges that leave it. -/
structure MonotoneBy [DecidableEq A] [Fact A] (an : Analysis A) (g : Graph) (p : Program)
    (f : NodeId → EdgeId → A → A) : Prop where
  forward : an.direction = .forward
  lawful : Fact.Lawful A
  bounded : Fact.Bounded A
  follows : an.Follows g p f
  monotone : ∀ n ∈ g.order, ∀ e ∈ g.outEdges.get n, ∀ a b, Fact.Below a b →
    Fact.Below (f n e a) (f n e b)

namespace MonotoneBy

variable [DecidableEq A] [Fact A] [DecidableEq B] [Fact B] {first : Analysis A}
  {second : Analysis B} {g : Graph} {p : Program} {f : NodeId → EdgeId → A → A}
  {h : NodeId → EdgeId → B → B}

theorem pair (hg : g.Wired) (hf : first.MonotoneBy g p f) (hh : second.MonotoneBy g p h) :
    (first.pair second).MonotoneBy g p fun n e a => (f n e a.1, h n e a.2) where
  forward := hf.forward
  lawful := hf.lawful.prod hh.lawful
  bounded := hf.bounded.prod hh.bounded
  follows := .pair hg (hh.forward.trans hf.forward.symm) hf.follows hh.follows
  monotone n hn e he _ _ hab := Fact.below_prod.2
    ⟨hf.monotone n hn e he _ _ (Fact.below_prod.1 hab).1,
      hh.monotone n hn e he _ _ (Fact.below_prod.1 hab).2⟩

/-- Solving a monotone analysis ends with the least solution. -/
theorem exists_least (hf : first.MonotoneBy g p f) (hg : g.Wired)
    (hord : Direction.forward.Ordered g) : ∃ bound m φ, (∀ k ≥ bound, first.solve k g p = .ok m) ∧
      m.Holds g φ ∧ first.Solves g f φ ∧ ∀ ψ, first.Solves g f ψ → ∀ e edge,
        g.edges.get? e = some edge → Fact.Below (φ e) (ψ e) := by
  let _ := hf.lawful.semilattice
  have _ := hf.bounded.wellFoundedGT hf.lawful
  have hmem : ∀ n, n ∈ first.direction.sequence g ↔ n ∈ g.order := fun n => Direction.mem_sequence
  have hgrow := hf.lawful.growingFrom hg (first.direction.sequence_nodup hg.toIndexed)
    (fun n hn => (hmem n).2 hn) (fun n hn hin => .inl ((hf.forward ▸ hord) n hn hin))
    (fun n hn e he => hf.monotone n hn e (by rw [hf.forward] at he; exact he))
  obtain ⟨bound, w, φ, hrun, _, _, hφ, hsolves, hleast⟩ :=
    hgrow.exists_least hg (fun n hn => (hmem n).2 hn) fun n hn => hf.follows n ((hmem n).1 hn)
  refine ⟨bound, w.facts, φ, fun k hk => ?_, hφ, hsolves, hleast⟩
  rw [first.solve_eq_run hg.toIndexed]
  exact congrArg (· >>= _) (hrun k hk)

/-- What solving ends with is the least solution. -/
theorem least_of_solve (hf : first.MonotoneBy g p f) (hg : g.Wired)
    (hord : Direction.forward.Ordered g) {bound : Nat} {m : FactMap A} {φ : EdgeId → A}
    (hm : ∀ k ≥ bound, first.solve k g p = .ok m) (hφ : m.Holds g φ) :
    ∃ φ', (∀ e edge, g.edges.get? e = some edge → φ' e = φ e) ∧ first.Solves g f φ' ∧
      ∀ ψ, first.Solves g f ψ → ∀ e edge, g.edges.get? e = some edge →
        Fact.Below (φ' e) (ψ e) := by
  obtain ⟨_, _, φ', hm', hφ', hsolves, hleast⟩ := hf.exists_least hg hord
  refine ⟨φ', fun e edge he => ?_, hsolves, hleast⟩
  obtain rfl := eq_of_solve hm hm'
  exact Option.some.inj ((hφ'.get he).symm.trans (hφ.get he))

/-- Solving two analyses as one ends with what solving each of them ends with. -/
theorem exists_solve_pair (hg : g.Wired) (hord : Direction.forward.Ordered g)
    (hf : first.MonotoneBy g p f) (hh : second.MonotoneBy g p h) {bound bound' : Nat}
    {m : FactMap A} {m' : FactMap B} {φ : EdgeId → A} {ψ : EdgeId → B}
    (hm : ∀ k ≥ bound, first.solve k g p = .ok m) (hφ : m.Holds g φ)
    (hm' : ∀ k ≥ bound', second.solve k g p = .ok m') (hψ : m'.Holds g ψ) :
    ∃ bound both, (∀ k ≥ bound, (first.pair second).solve k g p = .ok both) ∧
      both.Holds g fun e => (φ e, ψ e) := by
  have hdir := hh.forward.trans hf.forward.symm
  obtain ⟨bound, both, χ, hboth, hχ, hsolves, hleast⟩ := (hf.pair hg hh).exists_least hg hord
  obtain ⟨φ', hφ', hsolves₁, hleast₁⟩ := hf.least_of_solve hg hord hm hφ
  obtain ⟨ψ', hψ', hsolves₂, hleast₂⟩ := hh.least_of_solve hg hord hm' hψ
  refine ⟨bound, both, hboth, hχ.congr fun e edge he => ?_⟩
  -- The pair of least solutions is a solution, and both sides of the least one are solutions.
  obtain ⟨hside₁, hside₂⟩ := (solves_pair hdir).1 hsolves
  have hbelow := Fact.below_prod.1
    (hleast (fun e => (φ' e, ψ' e)) ((solves_pair hdir).2 ⟨hsolves₁, hsolves₂⟩) e edge he)
  rw [← hφ' e edge he, ← hψ' e edge he]
  exact Prod.ext (hf.lawful.eq_of_below hbelow.1 (hleast₁ _ hside₁ e edge he))
    (hh.lawful.eq_of_below hbelow.2 (hleast₂ _ hside₂ e edge he))

end MonotoneBy

end Analysis

/-! ### Any number of analyses -/

/-- Analyses combined two by two. -/
inductive Combination : Type 1
  | single {A : Type} [DecidableEq A] [Fact A] (an : Analysis A)
  | both (first second : Combination)

namespace Combination

/-- The facts of a combination. -/
def Facts : Combination → Type
  | @single A _ _ _ => A
  | both first second => first.Facts × second.Facts

instance decEq : (t : Combination) → DecidableEq t.Facts
  | single (A := A) _ => inferInstanceAs (DecidableEq A)
  | both first second =>
    have := first.decEq
    have := second.decEq
    inferInstanceAs (DecidableEq (first.Facts × second.Facts))

instance fact : (t : Combination) → Fact t.Facts
  | single (A := A) _ => inferInstanceAs (Fact A)
  | both first second =>
    have := first.fact
    have := second.fact
    inferInstanceAs (Fact (first.Facts × second.Facts))

/-- The analyses of a combination as one. -/
def analysis : (t : Combination) → Analysis t.Facts
  | single an => an
  | both first second => first.analysis.pair second.analysis

/-- All analyses of a combination are monotone. -/
def AllMonotone (g : Graph) (p : Program) : Combination → Prop
  | single an => ∃ f, an.MonotoneBy g p f
  | both first second => first.AllMonotone g p ∧ second.AllMonotone g p

/-- Each analysis of a combination, solved alone within any bound from `bound` on, ends with its
    part of the facts `φ` on the edges. -/
def SolvedApart (g : Graph) (p : Program) (bound : Nat) : (t : Combination) → (EdgeId → t.Facts) → Prop
  | single an, φ => ∃ m, (∀ k ≥ bound, an.solve k g p = .ok m) ∧ m.Holds g φ
  | both first second, φ => first.SolvedApart g p bound (fun e => (φ e).1) ∧
    second.SolvedApart g p bound fun e => (φ e).2

variable {g : Graph} {p : Program}

theorem SolvedApart.mono {t : Combination} {bound bound' : Nat} {φ : EdgeId → t.Facts}
    (h : t.SolvedApart g p bound φ) (hle : bound ≤ bound') : t.SolvedApart g p bound' φ := by
  induction t with
  | single an =>
    obtain ⟨m, hm, hφ⟩ := h
    exact ⟨m, fun k hk => hm k (hle.trans hk), hφ⟩
  | both first second ih₁ ih₂ => exact ⟨ih₁ h.1, ih₂ h.2⟩

theorem AllMonotone.exists_monotoneBy (hg : g.Wired) {t : Combination} (h : t.AllMonotone g p) :
    ∃ f, t.analysis.MonotoneBy g p f := by
  induction t with
  | single an => exact h
  | both first second ih₁ ih₂ =>
    obtain ⟨f₁, hf₁⟩ := ih₁ h.1
    obtain ⟨f₂, hf₂⟩ := ih₂ h.2
    exact ⟨_, hf₁.pair hg hf₂⟩

/-- Solving a combination ends with what solving each of its analyses ends with. -/
theorem AllMonotone.exists_solve (hg : g.Wired) (hord : Direction.forward.Ordered g)
    {t : Combination} (h : t.AllMonotone g p) :
    ∃ bound m φ, (∀ k ≥ bound, t.analysis.solve k g p = .ok m) ∧ m.Holds g φ ∧
      t.SolvedApart g p bound φ := by
  induction t with
  | single an =>
    obtain ⟨f, hf⟩ := h
    obtain ⟨bound, m, φ, hm, hφ, _⟩ := hf.exists_least hg hord
    exact ⟨bound, m, φ, hm, hφ, m, hm, hφ⟩
  | both first second ih₁ ih₂ =>
    obtain ⟨bound₁, m₁, φ₁, hm₁, hφ₁, hapart₁⟩ := ih₁ h.1
    obtain ⟨bound₂, m₂, φ₂, hm₂, hφ₂, hapart₂⟩ := ih₂ h.2
    obtain ⟨f₁, hf₁⟩ := AllMonotone.exists_monotoneBy hg h.1
    obtain ⟨f₂, hf₂⟩ := AllMonotone.exists_monotoneBy hg h.2
    obtain ⟨bound, m, hm, hφ⟩ := hf₁.exists_solve_pair hg hord hf₂ hm₁ hφ₁ hm₂ hφ₂
    let most := max bound (max bound₁ bound₂)
    refine ⟨most, m, fun e => (φ₁ e, φ₂ e), fun k hk => hm k (le_trans (le_max_left _ _) hk), hφ,
      hapart₁.mono ?_, hapart₂.mono ?_⟩
    · exact (le_max_left _ _).trans (le_max_right _ _)
    · exact (le_max_right _ _).trans (le_max_right _ _)

end Combination

/-- On the graph of a body, solving two monotone forward analyses as one ends, and holds on each
    edge the pair of the facts that solving them one by one ends with. So it is for any number of
    them, however they are combined. -/
theorem solve_combined_eq_solve_apart {p : Program} {body : StmtId} {g : Graph}
    (hg : Graph.ofBody p body = .ok (.ok g)) :
    (∀ {A B : Type} [DecidableEq A] [Fact A] [DecidableEq B] [Fact B] {first : Analysis A}
      {second : Analysis B}, (∃ f, first.MonotoneBy g p f) → (∃ h, second.MonotoneBy g p h) →
      ∃ bound m₁ m₂ m φ₁ φ₂, (∀ k ≥ bound, first.solve k g p = .ok m₁ ∧
          second.solve k g p = .ok m₂ ∧ (first.pair second).solve k g p = .ok m) ∧
        m₁.Holds g φ₁ ∧ m₂.Holds g φ₂ ∧ m.Holds g fun e => (φ₁ e, φ₂ e)) ∧
    ∀ t : Combination, t.AllMonotone g p →
      ∃ bound m φ, (∀ k ≥ bound, t.analysis.solve k g p = .ok m) ∧ m.Holds g φ ∧
        t.SolvedApart g p bound φ := by
  obtain ⟨hlinked, hlaid⟩ := Graph.ofBody_laidOut hg
  have hord := hlaid.ordered hlinked.toWired
  refine ⟨?_, fun t ht => ht.exists_solve hlinked.toWired hord⟩
  intro A B _ _ _ _ first second hfirst hsecond
  obtain ⟨bound, m, φ, hm, hφ, ⟨m₁, hm₁, hφ₁⟩, m₂, hm₂, hφ₂⟩ :=
    Combination.AllMonotone.exists_solve (t := .both (.single first) (.single second))
      hlinked.toWired hord ⟨hfirst, hsecond⟩
  exact ⟨bound, m₁, m₂, m, _, _, fun k hk => ⟨hm₁ k hk, hm₂ k hk, hm k hk⟩, hφ₁, hφ₂, hφ⟩

/-- The nodes passed, whatever counts as passed from the beginning. -/
theorem passed_monotoneBy (initial : Bits) (g : Graph) (p : Program) :
    Analysis.MonotoneBy { passed with initial } g p passedAfter where
  forward := rfl
  lawful := Bits.lawful
  bounded := Bits.bounded
  follows _ _ _ := ⟨_, List.Perm.refl _, rfl⟩
  monotone n _ e _ := passedAfter_monotone n e

/-- On a loop, the nodes passed from two beginnings. -/
theorem solve_combined_eq_solve_apart_loop : ∃ g, Graph.ofBody sampleLoop ⟨0⟩ = .ok (.ok g) ∧
    ∃ bound m₁ m₂ m φ₁ φ₂, (∀ k ≥ bound, passed.solve k g sampleLoop = .ok m₁ ∧
        Analysis.solve k { passed with initial := ⟨128⟩ } g sampleLoop = .ok m₂ ∧
        (passed.pair { passed with initial := ⟨128⟩ }).solve k g sampleLoop = .ok m) ∧
      m₁.Holds g φ₁ ∧ m₂.Holds g φ₂ ∧ m.Holds g fun e => (φ₁ e, φ₂ e) := by
  obtain ⟨g, hg⟩ : ∃ g, Graph.ofBody sampleLoop ⟨0⟩ = .ok (.ok g) := ⟨_, rfl⟩
  exact ⟨g, hg, (solve_combined_eq_solve_apart hg).1 ⟨_, passed_monotoneBy ⟨0⟩ g sampleLoop⟩
    ⟨_, passed_monotoneBy ⟨128⟩ g sampleLoop⟩⟩

end Dataflow
