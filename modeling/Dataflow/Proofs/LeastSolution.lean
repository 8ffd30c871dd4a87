import Dataflow.Proofs.Visits
import Mathlib.Data.DFinsupp.WellFounded
import Mathlib.Order.WithBot

/-!
# Least solutions

The solver on facts that form a join-semilattice, for an analysis that puts a
monotone function of what arrives on each edge on the far side of a node. If every
node that facts arrive at has an edge from a node that is visited strictly before
it, the first round never falls back on the initial fact where an edge is still to
be reached. Or it does no harm to fall back on it, since it is below all that is ever
put on the edges to the node. From then on facts only grow, and they stay below every
solution.

* `Worklist.exists_run_of_raises`: a run whose visits only raise facts ends, if there are no
  infinite ascending chains;
* `RisingFrom`: the invariant of the solver, whatever the nodes it starts from, kept by every
  visit (`RisingFrom.visit`);
* `RisingFrom.least_solution`, `RisingFrom.exists_holds`: facts that are not to be visited again
  are the least solution;
* `GrowingFrom.exists_run`, `Growing.exists_solve`: there is such an end.

Facts are taken from a set closed under what the analysis does, so that only chains in
this set have to be finite.
-/

namespace Dataflow

variable {A : Type}

/-- The join of a list of facts, or `initial` if it is empty. -/
def Fact.joinAll [Fact A] (initial : A) : List A → A
  | [] => initial
  | a :: rest => rest.foldl Fact.join a

/-- One node stands in a list strictly before another one. -/
def Precedes (order : List NodeId) (k n : NodeId) : Prop :=
  ∃ before after, order = before ++ n :: after ∧ k ∈ before

theorem Precedes.idxOf_lt {order : List NodeId} {k n : NodeId} (h : Precedes order k n)
    (horder : order.Nodup) : order.idxOf k < order.idxOf n := by
  obtain ⟨before, after, rfl, hk⟩ := h
  have hn : n ∉ before := fun hn =>
    (List.nodup_append.1 horder).2.2 n hn n List.mem_cons_self rfl
  rw [List.idxOf_append_of_mem hk, List.idxOf_append_of_notMem hn, List.idxOf_cons_self]
  exact List.idxOf_lt_length_of_mem hk

namespace Direction

/-- The nodes of a graph in the sequence that solving visits them first. -/
def sequence (d : Direction) (g : Graph) : List NodeId := d.arrange g.order

/-- Every node that facts arrive at has an edge from a node visited strictly before it. -/
def Ordered (d : Direction) (g : Graph) : Prop :=
  ∀ n ∈ g.order, d.inputs g n ≠ [] → ∃ e k, d.Leads g e k n ∧ Precedes (d.sequence g) k n

theorem mem_sequence {d : Direction} {g : Graph} {n : NodeId} :
    n ∈ d.sequence g ↔ n ∈ g.order := by
  cases d with
  | forward => exact Iff.rfl
  | backward => exact List.mem_reverse

theorem sequence_nodup {d : Direction} {g : Graph} (hg : g.Indexed) : (d.sequence g).Nodup := by
  cases d with
  | forward => exact hg.order_nodup
  | backward => exact List.nodup_reverse.2 hg.order_nodup

end Direction

/-- The state that solving an analysis starts from. -/
def Analysis.start (an : Analysis A) (g : Graph) : Worklist A :=
  { facts := { initial := an.initial }, queue := an.direction.sequence g }

/-- The state with the nodes `seq` to visit, in which nothing is known. -/
def Analysis.startFrom (an : Analysis A) (seq : List NodeId) : Worklist A :=
  { facts := { initial := an.initial }, queue := seq }

/-- Nothing is known at first. -/
@[simp] theorem Analysis.get_start (an : Analysis A) (g : Graph) (e : EdgeId) :
    (an.start g).facts.get e = none :=
  SideTable.get_empty e

@[simp] theorem Analysis.get_startFrom (an : Analysis A) (seq : List NodeId) (e : EdgeId) :
    (an.startFrom seq).facts.get e = none :=
  SideTable.get_empty e

/-- Solving is a run from there. -/
theorem Analysis.solve_eq_run (an : Analysis A) {g : Graph} (hg : g.Indexed) (bound : Nat)
    (p : Program) : an.solve bound g p = (do
      return (← Worklist.run an g p bound (an.start g)).facts) := by
  have hqueue : (an.direction.arrange g.order).foldl enqueue [] = an.direction.sequence g :=
    foldl_enqueue_nodup (an.direction.sequence_nodup hg)
  rw [solve, an.propagate_eq, hqueue]
  change (Worklist.run an g p bound (an.start g) >>= _) >>= _ = _
  rw [bind_assoc]
  rfl

/-- The edges hold what follows from the facts that arrive where they begin; where no edge
    arrives at all, from the initial fact. -/
def Analysis.Solves [Fact A] (an : Analysis A) (g : Graph) (f : NodeId → EdgeId → A → A)
    (φ : EdgeId → A) : Prop :=
  ∀ n ∈ g.order, ∀ e ∈ an.direction.outputs g n,
    φ e = f n e (Fact.joinAll an.initial ((an.direction.inputs g n).map φ))

/-- The same at all nodes, also at those that are not in order. -/
def Analysis.SolvesAll [Fact A] (an : Analysis A) (g : Graph) (f : NodeId → EdgeId → A → A)
    (φ : EdgeId → A) : Prop :=
  ∀ n, ∀ e ∈ an.direction.outputs g n,
    φ e = f n e (Fact.joinAll an.initial ((an.direction.inputs g n).map φ))

/-- Where all edges join nodes in order, there are no equations but those of nodes in order. -/
theorem Analysis.Solves.all [Fact A] {an : Analysis A} {g : Graph} {f : NodeId → EdgeId → A → A}
    {φ : EdgeId → A} (h : an.Solves g f φ) (hg : g.Wired) : an.SolvesAll g f φ :=
  fun n e he => h n (an.direction.mem_order_of_outputs hg he) e he

/-! ### Joins of facts -/

namespace FactMap

theorem joined_eq_joinAll [Fact A] (m : FactMap A) (edges : List EdgeId) :
    m.joined edges = Fact.joinAll m.initial (edges.filterMap m.get) := rfl

/-- The facts only grew from one map to another. -/
def Raises [LE A] (m m' : FactMap A) : Prop :=
  ∀ e a, m.get e = some a → ∃ b, m'.get e = some b ∧ a ≤ b

end FactMap

/-- Facts that are as due on the far side of every node solve the equations. -/
theorem Worklist.exists_solves [Fact A] {an : Analysis A} {g : Graph} {f : NodeId → EdgeId → A → A}
    {w : Worklist A} (hg : g.Wired) (hinit : w.facts.initial = an.initial)
    (hsettled : ∀ n ∈ g.order, ∀ e ∈ an.direction.outputs g n,
      w.facts.get e = some (due an g f w n e)) :
    ∃ φ, (∀ e n k, an.direction.Leads g e n k → w.facts.get e = some (φ e)) ∧
      an.Solves g f φ := by
  have hset : ∀ e n k, an.direction.Leads g e n k → w.facts.get e = some (due an g f w n e) :=
    fun e n k hlead => hsettled n (an.direction.mem_order_of_leads hg hlead).1 e
      ((an.direction.mem_outputs_iff hg.toIndexed).2 ⟨k, hlead⟩)
  have hφ : ∀ e n k, an.direction.Leads g e n k →
      w.facts.get e = some ((w.facts.get e).getD an.initial) := fun e n k hlead => by
    rw [hset e n k hlead, Option.getD_some]
  refine ⟨fun e => (w.facts.get e).getD an.initial, hφ, fun n hn e he => ?_⟩
  obtain ⟨k, hlead⟩ := (an.direction.mem_outputs_iff hg.toIndexed).1 he
  -- Every edge that arrives at the node holds a fact, so that all of them are joined.
  have hall : (an.direction.inputs g n).filterMap w.facts.get =
      (an.direction.inputs g n).map fun d => (w.facts.get d).getD an.initial := by
    rw [← List.filterMap_eq_map]
    refine List.filterMap_congr fun d hd => ?_
    obtain ⟨m, hm⟩ := (an.direction.mem_inputs_iff hg.toIndexed).1 hd
    exact hφ d m n hm
  rw [← hall, ← hinit]
  exact congrArg (Option.getD · w.facts.initial) (hset e n k hlead)

/-- A map holds the facts of `φ` on the edges of a graph, and nothing else. -/
def FactMap.Holds (m : FactMap A) (g : Graph) (φ : EdgeId → A) : Prop :=
  ∀ e, m.get e = (g.edges.get? e).map fun _ => φ e

theorem FactMap.Holds.congr {m : FactMap A} {g : Graph} {φ φ' : EdgeId → A} (h : m.Holds g φ)
    (heq : ∀ e edge, g.edges.get? e = some edge → φ e = φ' e) : m.Holds g φ' := by
  intro e
  rw [h e]
  cases he : g.edges.get? e with
  | none => rfl
  | some edge => exact congrArg some (heq e edge he)

theorem FactMap.Holds.get {m : FactMap A} {g : Graph} {φ : EdgeId → A} (h : m.Holds g φ)
    {e : EdgeId} {edge : Edge} (he : g.edges.get? e = some edge) : m.get e = some (φ e) := by
  rw [h e, he]
  rfl

/-- Facts on edges only that are as due on the far side of every node solve the equations. -/
theorem Worklist.exists_holds [Fact A] {an : Analysis A} {g : Graph} {f : NodeId → EdgeId → A → A}
    {w : Worklist A} (hg : g.Wired) (hinit : w.facts.initial = an.initial)
    (hon_edge : ∀ e a, w.facts.get e = some a → ∃ n k, an.direction.Leads g e n k)
    (hsettled : ∀ n ∈ g.order, ∀ e ∈ an.direction.outputs g n,
      w.facts.get e = some (due an g f w n e)) : ∃ φ, w.facts.Holds g φ ∧ an.Solves g f φ := by
  obtain ⟨φ, hφ, hsolves⟩ := exists_solves hg hinit hsettled
  refine ⟨φ, fun e => ?_, hsolves⟩
  cases he : g.edges.get? e with
  | some edge =>
    obtain ⟨n, k, hlead⟩ := Direction.exists_leads hg an.direction he
    exact hφ e n k hlead
  | none =>
    cases ha : w.facts.get e with
    | none => rfl
    | some a =>
      obtain ⟨n, k, hlead⟩ := hon_edge e a ha
      obtain ⟨edge, hedge, _⟩ := hlead.receiver
      cases he.symm.trans hedge

section Joins

variable [SemilatticeSup A] [Fact A] (hjoin : ∀ a b : A, Fact.join a b = a ⊔ b)
include hjoin

theorem Fact.joinAll_le_iff {initial c : A} {l : List A} (hl : l ≠ []) :
    Fact.joinAll initial l ≤ c ↔ ∀ a ∈ l, a ≤ c := by
  cases l with
  | nil => exact absurd rfl hl
  | cons a rest =>
    clear hl
    induction rest generalizing a with
    | nil => simp [joinAll]
    | cons b rest ih =>
      refine (ih (Fact.join a b)).trans ?_
      simp [hjoin, and_assoc]

theorem Fact.le_joinAll {initial a : A} {l : List A} (ha : a ∈ l) : a ≤ Fact.joinAll initial l :=
  (Fact.joinAll_le_iff hjoin (List.ne_nil_of_mem ha)).1 le_rfl a ha

/-- The join of facts is below that of others if each is below one of them, and the initial fact
    too if there are none. -/
theorem Fact.joinAll_le_joinAll {initial : A} {l l' : List A} (hle : ∀ a ∈ l, ∃ b ∈ l', a ≤ b)
    (hinit : l = [] → ∀ b ∈ l', initial ≤ b) :
    Fact.joinAll initial l ≤ Fact.joinAll initial l' := by
  by_cases hl : l = []
  · subst hl
    cases l' with
    | nil => exact le_rfl
    | cons b rest =>
      exact (hinit rfl b List.mem_cons_self).trans (le_joinAll hjoin List.mem_cons_self)
  · rw [joinAll_le_iff hjoin hl]
    intro a ha
    obtain ⟨b, hb, hab⟩ := hle a ha
    exact hab.trans (le_joinAll hjoin hb)

/-- Where a fact has arrived already, or only such as are above the initial one will arrive, more
    facts and larger ones make the join larger. -/
theorem FactMap.joined_le_joined {m m' : FactMap A} (hinit : m.initial = m'.initial)
    (hraise : m.Raises m') {edges : List EdgeId}
    (hedges : (∃ d ∈ edges, (m.get d).isSome) ∨
      ∀ d ∈ edges, ∀ a, m'.get d = some a → m.initial ≤ a) :
    m.joined edges ≤ m'.joined edges := by
  rw [joined_eq_joinAll, joined_eq_joinAll, ← hinit]
  refine Fact.joinAll_le_joinAll hjoin (fun a ha => ?_) fun hnil b hb => ?_
  · obtain ⟨e, he, ha⟩ := List.mem_filterMap.1 ha
    obtain ⟨b, hb, hab⟩ := hraise e a ha
    exact ⟨b, List.mem_filterMap.2 ⟨e, he, hb⟩, hab⟩
  · obtain ⟨e, he, hb⟩ := List.mem_filterMap.1 hb
    rcases hedges with ⟨d, hd, hsome⟩ | habove
    · rw [List.filterMap_eq_nil_iff.1 hnil d hd] at hsome
      cases hsome
    · exact habove e he b hb

end Joins

/-! ### Runs that raise facts -/

section Measure

variable (S : Set A)

open Classical in
/-- The facts of a map on the first `N` edges, as far as they are in `S`; less than all of them
    where there is none. -/
noncomputable def FactMap.height (N : Nat) (m : FactMap A) : Fin N → (WithBot S)ᵒᵈ := fun i =>
  .toDual <| match m.get ⟨i⟩ with
    | some a => if h : a ∈ S then ((⟨a, h⟩ : S) : WithBot S) else ⊥
    | none => ⊥

variable {S} {N : Nat} {m m' : FactMap A}

theorem FactMap.height_of_get {i : Fin N} {a : A} (ha : a ∈ S) (h : m.get ⟨i⟩ = some a) :
    m.height S N i = .toDual ((⟨a, ha⟩ : S) : WithBot S) := by
  simp [height, h, ha]

variable [SemilatticeSup A]

/-- Raising facts lowers the dual of their height, strictly if anything changes. -/
theorem FactMap.height_lt (hm : ∀ e a, m.get e = some a → a ∈ S)
    (hm' : ∀ e a, m'.get e = some a → a ∈ S) (hraise : m.Raises m')
    {e : EdgeId} (he : e.index < N) (hne : m.get e ≠ m'.get e) :
    m'.height S N < m.height S N := by
  have hle : ∀ i : Fin N, m'.height S N i ≤ m.height S N i := by
    intro i
    cases ha : m.get ⟨i⟩ with
    | none => simp [height, ha]
    | some a =>
      obtain ⟨b, hb, hab⟩ := hraise _ a ha
      rw [height_of_get (hm _ a ha) ha, height_of_get (hm' _ b hb) hb]
      simpa using hab
  refine lt_of_le_of_ne hle fun heq => ?_
  -- The heights at the edge in question are those of its facts, which differ.
  have hi := congrFun heq ⟨e.index, he⟩
  cases ha : m.get e with
  | none =>
    cases hb : m'.get e with
    | none => exact hne (ha.trans hb.symm)
    | some b =>
      rw [height_of_get (hm' e b hb) hb] at hi
      simp [height, ha] at hi
  | some a =>
    obtain ⟨b, hb, _⟩ := hraise e a ha
    rw [height_of_get (hm' e b hb) hb, height_of_get (hm e a ha) ha] at hi
    have hab : b = a := by simpa using hi
    exact hne (by rw [ha, hb, hab])

/-- A run ends if its visits only raise facts on finitely many edges, inside a set without
    infinite ascending chains, and no node joins the queue unless a fact changes. -/
theorem Worklist.exists_run_of_raises [hS : WellFoundedGT S] {an : Analysis A} {g : Graph}
    {p : Program} {Inv : Worklist A → Prop} (N : Nat)
    (hfacts : ∀ w, Inv w → ∀ e a, w.facts.get e = some a → a ∈ S ∧ e.index < N)
    (hstep : ∀ w n rest, Inv w → w.queue = n :: rest → ∃ v, w.visit an g p n rest = .ok v ∧
      Inv v ∧ w.facts.Raises v.facts ∧ ((∀ e, w.facts.get e = v.facts.get e) → v.queue = rest))
    {w : Worklist A} (hw : Inv w) :
    ∃ bound v, run an g p bound w = .ok v ∧ Inv v ∧ v.queue = [] := by
  -- Either some fact grows, or the queue gets shorter.
  have hwf : WellFounded (InvImage (Prod.Lex (· < ·) (· < ·))
      fun w : Worklist A => (w.facts.height S N, w.queue.length)) :=
    InvImage.wf _ (WellFounded.prod_lex wellFounded_lt wellFounded_lt)
  refine exists_run hwf (fun w n rest hinv hq => ?_) hw
  obtain ⟨v, hv, hinv', hraise, hsame⟩ := hstep w n rest hinv hq
  refine ⟨v, hv, hinv', ?_⟩
  by_cases hchange : ∀ e, w.facts.get e = v.facts.get e
  · have hheight : v.facts.height S N = w.facts.height S N := by
      funext i
      rw [FactMap.height, FactMap.height, hchange]
    have hlen : v.queue.length < w.queue.length := by
      rw [hsame hchange, hq]
      exact Nat.lt_succ_self _
    change Prod.Lex _ _ (v.facts.height S N, v.queue.length) (w.facts.height S N, w.queue.length)
    rw [hheight]
    exact .right _ hlen
  · obtain ⟨e, he⟩ := not_forall.1 hchange
    have hlt : e.index < N := by
      cases hb : v.facts.get e with
      | some b => exact (hfacts v hinv' e b hb).2
      | none =>
        cases ha : w.facts.get e with
        | some a => exact (hfacts w hinv e a ha).2
        | none => exact absurd (ha.trans hb.symm) he
    exact .left _ _ (FactMap.height_lt (fun e a h => (hfacts w hinv e a h).1)
      (fun e a h => (hfacts v hinv' e a h).1) hraise hlt he)

end Measure

/-! ### Solving -/

section Solving

/-- At a node a fact has arrived, or none ever will. -/
def Worklist.Arrived (an : Analysis A) (g : Graph) (w : Worklist A) (n : NodeId) : Prop :=
  an.direction.inputs g n = [] ∨ ∃ d ∈ an.direction.inputs g n, (w.facts.get d).isSome

/-- The initial fact is below all that is ever put on the edges to a node. -/
def Analysis.StartsBelow [LE A] (an : Analysis A) (g : Graph) (f : NodeId → EdgeId → A → A)
    (n : NodeId) : Prop :=
  ∀ e k, an.direction.Leads g e k n → ∀ a, an.initial ≤ f k e a

variable [Fact A] [SemilatticeSup A]

/-- The solver's state while facts grow toward the least solution, where it began with the nodes
    `seq` to visit. -/
structure RisingFrom (an : Analysis A) (g : Graph) (f : NodeId → EdgeId → A → A) (S : Set A)
    (seq : List NodeId) (w : Worklist A) : Prop where
  initial : w.facts.initial = an.initial
  changed : w.facts.changed = []
  mem_set : ∀ e a, w.facts.get e = some a → a ∈ S
  on_edge : ∀ e a, w.facts.get e = some a →
    ∃ n ∈ seq, ∃ k c, an.direction.Leads g e n k ∧ a = f n e c
  queued : ∀ n ∈ w.queue, n ∈ seq
  /-- The first round: the nodes visited in it have facts on the edges on their far side. -/
  round : ∃ past ahead later, seq = past ++ ahead ∧ w.queue = ahead ++ later ∧
    ∀ n ∈ past, ∀ e ∈ an.direction.outputs g n, (w.facts.get e).isSome
  /-- Where there is a fact, one had arrived before, or none ever will, or it did no harm to
      take the initial one instead. -/
  grounded : ∀ n, ∀ e ∈ an.direction.outputs g n, (w.facts.get e).isSome →
    w.Arrived an g n ∨ an.StartsBelow g f n
  le_due : ∀ n, ∀ e ∈ an.direction.outputs g n, ∀ a, w.facts.get e = some a →
    a ≤ Worklist.due an g f w n e
  settled : ∀ n ∈ seq, n ∉ w.queue → ∀ e ∈ an.direction.outputs g n,
    w.facts.get e = some (Worklist.due an g f w n e)
  le_solution : ∀ φ, an.SolvesAll g f φ → ∀ e a, w.facts.get e = some a → a ≤ φ e

/-- The state that the solver starts from. -/
theorem RisingFrom.start (an : Analysis A) (g : Graph) (f : NodeId → EdgeId → A → A) (S : Set A)
    (seq : List NodeId) : RisingFrom an g f S seq (an.startFrom seq) where
  initial := rfl
  changed := rfl
  mem_set e a h := by simp at h
  on_edge e a h := by simp at h
  queued n hn := hn
  round := ⟨[], seq, [], by simp, by simp [Analysis.startFrom], by simp⟩
  grounded n e he h := by simp at h
  le_due n e he a h := by simp at h
  settled n hn hq := absurd hn hq
  le_solution φ hφ e a h := by simp at h

/-- What makes facts grow: functions that are monotone and stay inside `S`, and a sequence of
    nodes that no edge leads out of, in which facts arrive at a node before it is visited, or do
    no harm by arriving later. There may be other nodes, with edges into the sequence; they are
    never visited. -/
structure GrowingFrom (an : Analysis A) (g : Graph) (f : NodeId → EdgeId → A → A) (S : Set A)
    (seq : List NodeId) : Prop where
  join : ∀ a b : A, Fact.join a b = a ⊔ b
  indexed : g.Indexed
  nodup : seq.Nodup
  closed : ∀ n ∈ seq, ∀ e k, an.direction.Leads g e n k → k ∈ seq
  founded : ∀ n ∈ seq, an.direction.inputs g n ≠ [] →
    (∃ e k, an.direction.Leads g e k n ∧ Precedes seq k n) ∨ an.StartsBelow g f n
  monotone : ∀ n ∈ seq, ∀ e ∈ an.direction.outputs g n, Monotone (f n e)
  initial_mem : an.initial ∈ S
  sup_mem : ∀ a ∈ S, ∀ b ∈ S, a ⊔ b ∈ S
  mem : ∀ n ∈ seq, ∀ e ∈ an.direction.outputs g n, ∀ a ∈ S, f n e a ∈ S

theorem GrowingFrom.joinAll_mem {an : Analysis A} {g : Graph} {f : NodeId → EdgeId → A → A}
    {S : Set A} {seq : List NodeId} (hf : GrowingFrom an g f S seq) {l : List A}
    (hl : ∀ a ∈ l, a ∈ S) : Fact.joinAll an.initial l ∈ S := by
  cases l with
  | nil => exact hf.initial_mem
  | cons a rest =>
    induction rest generalizing a with
    | nil => exact hl a List.mem_cons_self
    | cons b rest ih =>
      refine ih (Fact.join a b) fun c hc => ?_
      rcases List.mem_cons.1 hc with rfl | hc
      · rw [hf.join]
        exact hf.sup_mem a (hl a (by simp)) b (hl b (by simp))
      · exact hl c (by simp [hc])

namespace RisingFrom

variable {an : Analysis A} {g : Graph} {f : NodeId → EdgeId → A → A} {S : Set A}
  {seq : List NodeId} {w v : Worklist A} {n : NodeId} {rest : List NodeId}
  (hf : GrowingFrom an g f S seq) (h : RisingFrom an g f S seq w)
include hf h

/-- The round has reached the node that is visited next, if it has an edge from a node before
    it. -/
theorem arrived_of_precedes (hq : w.queue = n :: rest) {e : EdgeId} {k : NodeId}
    (hlead : an.direction.Leads g e k n) (hprec : Precedes seq k n) : w.Arrived an g n := by
  obtain ⟨past, ahead, later, hseq, hqueue, hpast⟩ := h.round
  obtain ⟨before, after, hsplit, hk⟩ := hprec
  -- An edge from a node of the round before `n` holds a fact.
  suffices hmem : k ∈ past from
    .inr ⟨e, (an.direction.mem_inputs_iff hf.indexed).2 ⟨k, hlead⟩,
      hpast k hmem e ((an.direction.mem_outputs_iff hf.indexed).2 ⟨n, hlead⟩)⟩
  cases ahead with
  | nil =>
    rw [List.append_nil] at hseq
    rw [← hseq, hsplit]
    exact List.mem_append_left _ hk
  | cons m ahead =>
    rw [hq] at hqueue
    obtain ⟨rfl, _⟩ := List.cons.inj hqueue
    -- Both splits of the sequence are at `n`, which stands there once.
    have hnot : n ∉ past ∧ n ∉ ahead := by
      have hnodup := hf.nodup
      rw [hseq, List.nodup_append] at hnodup
      exact ⟨fun hp => hnodup.2.2 n hp n List.mem_cons_self rfl,
        (List.nodup_cons.1 hnodup.2.1).1⟩
    rw [hsplit] at hseq
    obtain ⟨rfl, _⟩ := (List.append_cons_inj_of_notMem hnot.1 hnot.2).1 hseq.symm
    exact hk

/-- What is due at the node that is visited next is no larger for having been asked for early. -/
theorem arrived_or (hq : w.queue = n :: rest) : w.Arrived an g n ∨ an.StartsBelow g f n := by
  have hn : n ∈ seq := h.queued n (hq ▸ List.mem_cons_self)
  by_cases hin : an.direction.inputs g n = []
  · exact .inl (.inl hin)
  · rcases hf.founded n hn hin with ⟨e, k, hlead, hprec⟩ | hlow
    · exact .inl (h.arrived_of_precedes hf hq hlead hprec)
    · exact .inr hlow

omit hf in
/-- A visit only raises facts. -/
theorem raises (hv : Worklist.Visited an g f n rest w v) : w.facts.Raises v.facts := by
  intro e a ha
  rw [hv.facts e]
  split
  · next he => exact ⟨_, rfl, h.le_due n e he a ha⟩
  · exact ⟨a, ha, le_rfl⟩

/-- A visit puts facts on edges only, and by the functions. -/
theorem on_edge_visit (hn : n ∈ seq) (hv : Worklist.Visited an g f n rest w v) {e : EdgeId} {a : A}
    (ha : v.facts.get e = some a) :
    ∃ k ∈ seq, ∃ l c, an.direction.Leads g e k l ∧ a = f k e c := by
  rw [hv.facts e] at ha
  split at ha
  · next he =>
    obtain ⟨l, hl⟩ := (an.direction.mem_outputs_iff hf.indexed).1 he
    exact ⟨n, hn, l, _, hl, (Option.some.inj ha).symm⟩
  · exact h.on_edge e a ha

/-- A visit raises what is due on the far side of every node that facts have arrived at, or at
    which all of them are above the initial one. -/
theorem due_le_due (hn : n ∈ seq) (hv : Worklist.Visited an g f n rest w v) {k : NodeId}
    (hk : k ∈ seq) (hin : w.Arrived an g k ∨ an.StartsBelow g f k) {e : EdgeId}
    (he : e ∈ an.direction.outputs g k) :
    Worklist.due an g f w k e ≤ Worklist.due an g f v k e := by
  refine hf.monotone k hk e he
    (FactMap.joined_le_joined hf.join hv.initial.symm (h.raises hv) ?_)
  rcases hin with (hnil | harrived) | hlow
  · exact .inr fun d hd => by rw [hnil] at hd; cases hd
  · exact .inl harrived
  · refine .inr fun d hd a ha => ?_
    obtain ⟨l, hl⟩ := (an.direction.mem_inputs_iff hf.indexed).1 hd
    obtain ⟨l', _, k', c, hl', rfl⟩ := h.on_edge_visit hf hn hv ha
    rw [h.initial, (hl'.unique hl).1]
    exact hlow d l hl c

omit hf in
theorem isSome_of_isSome (hv : Worklist.Visited an g f n rest w v) {e : EdgeId}
    (he : (w.facts.get e).isSome) : (v.facts.get e).isSome := by
  obtain ⟨a, ha⟩ := Option.isSome_iff_exists.1 he
  obtain ⟨b, hb, _⟩ := h.raises hv e a ha
  rw [hb]
  rfl

omit hf in
theorem arrived_of_arrived (hv : Worklist.Visited an g f n rest w v) {k : NodeId}
    (hin : w.Arrived an g k) : v.Arrived an g k :=
  hin.imp_right fun ⟨d, hd, hsome⟩ => ⟨d, hd, h.isSome_of_isSome hv hsome⟩

/-- What is due is below every solution. -/
theorem due_le_solution (hn : n ∈ seq) (hin : w.Arrived an g n ∨ an.StartsBelow g f n)
    {φ : EdgeId → A} (hφ : an.SolvesAll g f φ) {e : EdgeId} (he : e ∈ an.direction.outputs g n) :
    Worklist.due an g f w n e ≤ φ e := by
  rw [hφ n e he]
  refine hf.monotone n hn e he ?_
  rw [FactMap.joined_eq_joinAll, h.initial]
  refine Fact.joinAll_le_joinAll hf.join (fun a ha => ?_) fun hnil b hb => ?_
  · obtain ⟨d, hd, ha⟩ := List.mem_filterMap.1 ha
    exact ⟨φ d, List.mem_map_of_mem hd, h.le_solution φ hφ d a ha⟩
  · obtain ⟨d, hd, rfl⟩ := List.mem_map.1 hb
    rcases hin with (hempty | ⟨d', hd', hsome⟩) | hlow
    · rw [hempty] at hd
      cases hd
    · rw [List.filterMap_eq_nil_iff.1 hnil d' hd'] at hsome
      cases hsome
    · obtain ⟨k, hk⟩ := (an.direction.mem_inputs_iff hf.indexed).1 hd
      rw [hφ k d ((an.direction.mem_outputs_iff hf.indexed).2 ⟨n, hk⟩)]
      exact hlow d k hk _

omit hf in
/-- The first round goes on by a visit. -/
theorem round_visit (hq : w.queue = n :: rest) (hv : Worklist.Visited an g f n rest w v) :
    ∃ past ahead later, seq = past ++ ahead ∧ v.queue = ahead ++ later ∧
      ∀ k ∈ past, ∀ e ∈ an.direction.outputs g k, (v.facts.get e).isSome := by
  obtain ⟨past, ahead, later, hseq, hqueue, hpast⟩ := h.round
  obtain ⟨more, hmore⟩ := hv.behind
  have hkeep : ∀ k ∈ past, ∀ e ∈ an.direction.outputs g k, (v.facts.get e).isSome :=
    fun k hk e he => h.isSome_of_isSome hv (hpast k hk e he)
  cases ahead with
  | nil => exact ⟨past, [], v.queue, hseq, rfl, hkeep⟩
  | cons m ahead =>
    rw [hq] at hqueue
    obtain ⟨rfl, rfl⟩ := List.cons.inj hqueue
    refine ⟨past ++ [n], ahead, later ++ more, by simp [hseq], by simp [hmore], ?_⟩
    intro k hk e he
    rcases List.mem_append.1 hk with hk | hk
    · exact hkeep k hk e he
    · rw [List.mem_singleton.1 hk] at he
      rw [hv.get_of_mem he]
      rfl

/-- Every visit keeps the invariant. -/
theorem visit (hq : w.queue = n :: rest) (hv : Worklist.Visited an g f n rest w v) :
    RisingFrom an g f S seq v := by
  have hn : n ∈ seq := h.queued n (hq ▸ List.mem_cons_self)
  have hreached := h.arrived_or hf hq
  refine ⟨hv.initial.trans h.initial, hv.changed, ?mem_set, fun e a => h.on_edge_visit hf hn hv,
    ?queued, h.round_visit hq hv, ?grounded, ?le_due, hv.settled hf.indexed hq h.settled,
    ?le_solution⟩
  case mem_set =>
    intro e a ha
    rw [hv.facts e] at ha
    split at ha
    · next he =>
      cases ha
      refine hf.mem n hn e he _ ?_
      rw [FactMap.joined_eq_joinAll, h.initial]
      refine hf.joinAll_mem fun a ha => ?_
      obtain ⟨d, _, hd⟩ := List.mem_filterMap.1 ha
      exact h.mem_set d a hd
    · exact h.mem_set e a ha
  case queued =>
    intro k hk
    rcases (hv.mem_queue k).1 hk with hk | ⟨e, _, _, hlead⟩
    · exact h.queued k (hq ▸ List.mem_cons_of_mem _ hk)
    · exact hf.closed n hn e k hlead
  case grounded =>
    intro k e he hsome
    refine Or.imp_left (h.arrived_of_arrived hv) ?_
    by_cases hkn : k = n
    · subst hkn
      exact hreached
    · rw [hv.get_of_ne hf.indexed hkn he] at hsome
      exact h.grounded k e he hsome
  case le_due =>
    intro k e he a ha
    by_cases hkn : k = n
    · subst hkn
      rw [hv.get_of_mem he] at ha
      exact Option.some.inj ha ▸ h.due_le_due hf hn hv hn hreached he
    · rw [hv.get_of_ne hf.indexed hkn he] at ha
      -- The edge holds a fact, so that it leaves a node of the sequence.
      obtain ⟨k', hk', _, _, hlead', _⟩ := h.on_edge e a ha
      obtain ⟨_, hlead⟩ := (an.direction.mem_outputs_iff hf.indexed).1 he
      have hk : k ∈ seq := (hlead'.unique hlead).1 ▸ hk'
      exact (h.le_due k e he a ha).trans <| h.due_le_due hf hn hv hk
        (h.grounded k e he (Option.isSome_iff_exists.2 ⟨a, ha⟩)) he
  case le_solution =>
    intro φ hφ e a ha
    rw [hv.facts e] at ha
    split at ha
    · next hout =>
      exact Option.some.inj ha ▸ h.due_le_solution hf hn hreached hφ hout
    · exact h.le_solution φ hφ e a ha

omit hf in
/-- When nothing is left to visit, the facts are the least solution, if all nodes in order were
    to be visited and all edges join such nodes. -/
theorem least_solution (hg : g.Wired) (hseq : ∀ n ∈ g.order, n ∈ seq) (hq : w.queue = []) :
    ∃ φ, (∀ e n k, an.direction.Leads g e n k → w.facts.get e = some (φ e)) ∧ an.Solves g f φ ∧
      ∀ ψ, an.Solves g f ψ → ∀ e n k, an.direction.Leads g e n k → φ e ≤ ψ e := by
  obtain ⟨φ, hφ, hsolves⟩ := Worklist.exists_solves hg h.initial
    fun n hn e he => h.settled n (hseq n hn) (by simp [hq]) e he
  exact ⟨φ, hφ, hsolves, fun ψ hψ e n k hlead => h.le_solution ψ (hψ.all hg) e _ (hφ e n k hlead)⟩

omit hf in
theorem exists_holds (hg : g.Wired) (hseq : ∀ n ∈ g.order, n ∈ seq) (hq : w.queue = []) :
    ∃ φ, w.facts.Holds g φ ∧ an.Solves g f φ ∧
      ∀ ψ, an.Solves g f ψ → ∀ e edge, g.edges.get? e = some edge → φ e ≤ ψ e := by
  obtain ⟨φ, hφ, hsolves⟩ := Worklist.exists_holds hg h.initial
    (fun e a ha => by
      obtain ⟨n, _, k, _, hlead, _⟩ := h.on_edge e a ha
      exact ⟨n, k, hlead⟩)
    fun n hn e he => h.settled n (hseq n hn) (by simp [hq]) e he
  exact ⟨φ, hφ, hsolves, fun ψ hψ e edge he => h.le_solution ψ (hψ.all hg) e _ (hφ.get he)⟩

end RisingFrom

namespace GrowingFrom

variable [DecidableEq A] {an : Analysis A} {g : Graph} {p : Program} {f : NodeId → EdgeId → A → A}
  {S : Set A} {seq : List NodeId} (hf : GrowingFrom an g f S seq)
  (hfollows : ∀ n ∈ seq, an.FollowsAt g p f n)
include hf hfollows

theorem exists_visit {w : Worklist A} {n : NodeId} {rest : List NodeId}
    (h : RisingFrom an g f S seq w) (hq : w.queue = n :: rest) :
    ∃ v, w.visit an g p n rest = .ok v ∧ RisingFrom an g f S seq v ∧
      w.facts.Raises v.facts ∧ ((∀ e, w.facts.get e = v.facts.get e) → v.queue = rest) := by
  have hn : n ∈ seq := h.queued n (hq ▸ List.mem_cons_self)
  obtain ⟨v, hvisit, hv⟩ := Worklist.visit_followsAt hf.indexed (hfollows n hn) rest h.changed
  refine ⟨v, hvisit, h.visit hf hq hv, h.raises hv, fun hsame => hv.same fun e he hne => ?_⟩
  exact absurd (by rw [hsame e, hv.get_of_mem he]) hne

/-- The solver ends with nothing left to visit. -/
theorem exists_run [WellFoundedGT S] : ∃ bound v, RisingFrom an g f S seq v ∧ v.queue = [] ∧
    ∀ B ≥ bound, Worklist.run an g p B (an.startFrom seq) = .ok v := by
  have hN : ∀ w : Worklist A, RisingFrom an g f S seq w → ∀ e a, w.facts.get e = some a →
      a ∈ S ∧ e.index < g.edges.size := by
    intro w hw e a ha
    obtain ⟨_, _, _, _, hlead, _⟩ := hw.on_edge e a ha
    obtain ⟨edge, hedge, _⟩ := hlead.receiver
    exact ⟨hw.mem_set e a ha, Arena.get?_eq_some_lt hedge⟩
  obtain ⟨bound, v, hrun, hv, hq⟩ := Worklist.exists_run_of_raises g.edges.size hN
    (fun w n rest h hq => hf.exists_visit hfollows h hq) (RisingFrom.start an g f S seq)
  exact ⟨bound, v, hv, hq, fun B hB => Worklist.run_mono hrun hB⟩

/-- The invariant holds of every state that the solver comes to. -/
theorem rising_of_follows {w : Worklist A}
    (hreaches : Worklist.Reaches an g p (an.startFrom seq) w) : RisingFrom an g f S seq w := by
  refine hreaches.invariant (fun w n rest hw hq => ?_) (RisingFrom.start an g f S seq)
  obtain ⟨v, hvisit, hv, _⟩ := hf.exists_visit hfollows hw hq
  exact ⟨v, hvisit, hv⟩

theorem rising_of_run {B : Nat} {w : Worklist A}
    (hrun : Worklist.run an g p B (an.startFrom seq) = .ok w) :
    RisingFrom an g f S seq w ∧ w.queue = [] := by
  obtain ⟨hreaches, hq⟩ := Worklist.run_reaches hrun
  exact ⟨hf.rising_of_follows hfollows hreaches, hq⟩

end GrowingFrom

/-! ### Starting with all nodes in order -/

/-- The solver's state while facts grow toward the least solution, where it began with all nodes
    in order. -/
abbrev Rising (an : Analysis A) (g : Graph) (f : NodeId → EdgeId → A → A) (S : Set A)
    (w : Worklist A) : Prop :=
  RisingFrom an g f S (an.direction.sequence g) w

/-- What makes facts grow: functions that are monotone and stay inside `S`, and an order of the
    nodes in which facts arrive at a node before it is visited. -/
structure Growing (an : Analysis A) (g : Graph) (f : NodeId → EdgeId → A → A) (S : Set A) :
    Prop where
  join : ∀ a b : A, Fact.join a b = a ⊔ b
  wired : g.Wired
  ordered : an.direction.Ordered g
  monotone : ∀ n ∈ g.order, ∀ e ∈ an.direction.outputs g n, Monotone (f n e)
  initial_mem : an.initial ∈ S
  sup_mem : ∀ a ∈ S, ∀ b ∈ S, a ⊔ b ∈ S
  mem : ∀ n ∈ g.order, ∀ e, ∀ a ∈ S, f n e a ∈ S

/-- The same functions make facts grow from any sequence in which facts arrive in time. -/
theorem Growing.along {an : Analysis A} {g : Graph} {f : NodeId → EdgeId → A → A} {S : Set A}
    (hf : Growing an g f S) {seq : List NodeId} (hnodup : seq.Nodup)
    (hmem : ∀ n ∈ g.order, n ∈ seq)
    (hord : ∀ n ∈ g.order, an.direction.inputs g n ≠ [] →
      ∃ e k, an.direction.Leads g e k n ∧ Precedes seq k n) : GrowingFrom an g f S seq where
  join := hf.join
  indexed := hf.wired.toIndexed
  nodup := hnodup
  closed _ _ _ k hlead := hmem k (an.direction.mem_order_of_leads hf.wired hlead).2
  founded n _ hin := .inl (hord n (an.direction.mem_order_of_inputs hf.wired hin) hin)
  monotone n _ e he := hf.monotone n (an.direction.mem_order_of_outputs hf.wired he) e he
  initial_mem := hf.initial_mem
  sup_mem := hf.sup_mem
  mem n _ e he := hf.mem n (an.direction.mem_order_of_outputs hf.wired he) e

theorem Growing.along_sequence {an : Analysis A} {g : Graph} {f : NodeId → EdgeId → A → A}
    {S : Set A} (hf : Growing an g f S) : GrowingFrom an g f S (an.direction.sequence g) :=
  hf.along (an.direction.sequence_nodup hf.wired.toIndexed) (fun _ => Direction.mem_sequence.2) hf.ordered

namespace Rising

variable {an : Analysis A} {g : Graph} {f : NodeId → EdgeId → A → A} {S : Set A}
  {w v : Worklist A} {n : NodeId} {rest : List NodeId}

theorem start (an : Analysis A) (g : Graph) (f : NodeId → EdgeId → A → A) (S : Set A) :
    Rising an g f S (an.start g) :=
  RisingFrom.start an g f S _

theorem queued (h : Rising an g f S w) : ∀ n ∈ w.queue, n ∈ g.order := fun n hn =>
  Direction.mem_sequence.1 (RisingFrom.queued h n hn)

variable (hf : Growing an g f S) (h : Rising an g f S w)
include hf h

/-- The round has reached the node that is visited next. -/
theorem arrived (hq : w.queue = n :: rest) : w.Arrived an g n := by
  by_cases hin : an.direction.inputs g n = []
  · exact .inl hin
  · obtain ⟨e, k, hlead, hprec⟩ := hf.ordered n (h.queued n (hq ▸ List.mem_cons_self)) hin
    exact h.arrived_of_precedes hf.along_sequence hq hlead hprec

theorem visit (hq : w.queue = n :: rest) (hv : Worklist.Visited an g f n rest w v) :
    Rising an g f S v :=
  RisingFrom.visit hf.along_sequence h hq hv

theorem least_solution (hq : w.queue = []) :
    ∃ φ, (∀ e n k, an.direction.Leads g e n k → w.facts.get e = some (φ e)) ∧ an.Solves g f φ ∧
      ∀ ψ, an.Solves g f ψ → ∀ e n k, an.direction.Leads g e n k → φ e ≤ ψ e :=
  RisingFrom.least_solution h hf.wired (fun _ => Direction.mem_sequence.2) hq

end Rising

namespace Growing

variable [DecidableEq A] {an : Analysis A} {g : Graph} {p : Program} {f : NodeId → EdgeId → A → A}
  {S : Set A} (hf : Growing an g f S) (hfollows : an.Follows g p f)
include hf hfollows

theorem exists_visit {w : Worklist A} {n : NodeId} {rest : List NodeId} (h : Rising an g f S w)
    (hq : w.queue = n :: rest) : ∃ v, w.visit an g p n rest = .ok v ∧ Rising an g f S v ∧
      w.facts.Raises v.facts ∧ ((∀ e, w.facts.get e = v.facts.get e) → v.queue = rest) :=
  hf.along_sequence.exists_visit (fun n hn => hfollows n (Direction.mem_sequence.1 hn)) h hq

/-- Solving ends with nothing left to visit. -/
theorem exists_solve [WellFoundedGT S] : ∃ bound v, Rising an g f S v ∧ v.queue = [] ∧
    ∀ B ≥ bound, an.solve B g p = .ok v.facts := by
  obtain ⟨bound, v, hv, hq, hrun⟩ :=
    hf.along_sequence.exists_run fun n hn => hfollows n (Direction.mem_sequence.1 hn)
  refine ⟨bound, v, hv, hq, fun B hB => ?_⟩
  rw [an.solve_eq_run hf.wired.toIndexed]
  change (Worklist.run an g p B (an.startFrom (an.direction.sequence g)) >>= _) = _
  rw [hrun B hB]
  rfl

end Growing

end Solving

end Dataflow
