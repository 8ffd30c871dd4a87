import Dataflow.Proofs.LeastSolution
import Dataflow.Proofs.Operations

/-!
# The layout of method graphs

How the nodes and edges of a graph follow the statements of a method: as an
inductive relation between a part of a program and a stretch of nodes, which says
for each node what it stands for and where the control comes from. It holds of every
graph made by lowering, and it still holds of a graph some of whose reads were
replaced by fragments: a call in such a fragment has no way that parts before it,
and a node may stand for an expression that has no operation.

A stretch has four sides: the open edges that enter it, its nodes in order, the open
edges that leave it, and those that leave it for the end of the method.

* `Spelled`: the operations of expressions, in a row;
* `Headed`: a statement's own node, its expressions and what it does with them;
* `Laid`: statements;
* `Graph.LaidOut`: the graph of a body;
* `Graph.LaidOut.ordered`: every node that the control comes to is entered from a node
  strictly before it.
-/

namespace Dataflow

/-- A node says something and is entered by certain edges, in order. -/
structure Sits (g : Graph) (n : NodeId) (kind : NodeKind) (origin : Origin)
    (parent : Option NodeId) (ins : List OpenEdge) : Prop where
  node : g.nodes.get? n = some ⟨kind, origin, parent⟩
  arrivals : g.arrivals n = ins

/-- What a statement does last, after its own expressions are evaluated. -/
def Stmt.lastKind : Stmt → Option NodeKind
  | declare v (some e) => some (.write v e)
  | branch condition .. | loop condition _ => some (.conditional condition)
  | ret _ => some .goto
  | block _ | declare _ none | expr _ => none

/-- A statement that goes on to the next one when its expressions are evaluated. -/
def Stmt.isStraight : Stmt → Bool
  | declare .. | expr _ => true
  | block _ | branch .. | loop .. | ret _ => false

/-- A part of a method body. -/
inductive Part where
  | stmt (s : StmtId)
  | seq (ss : List StmtId)

/-- Operations laid out in a row. -/
inductive Spelled (g : Graph) (parent : Option NodeId) :
    List Operation → List OpenEdge → List NodeId → List OpenEdge → List OpenEdge → Prop
  | nil {ins : List OpenEdge} : Spelled g parent [] ins [] ins []
  | op {o : Operation} {os : List Operation} {n : NodeId} {ns : List NodeId}
      {ins outs ends : List OpenEdge} :
    Sits g n o.kind (.expr o.expr) parent ins → Spelled g parent os [(n, none)] ns outs ends →
    Spelled g parent (o :: os) ins (n :: ns) outs ends
  | call {o : Operation} {e : ExprId} {os : List Operation} {m n : NodeId} {ns : List NodeId}
      {ins outs ends : List OpenEdge} : o.kind = .call e →
    Sits g m (.optionalThrow e) (.expr o.expr) parent ins →
    Sits g n (.call e) (.expr o.expr) parent [(m, some .noThrow)] →
    Spelled g parent os [(n, none)] ns outs ends →
    Spelled g parent (o :: os) ins (m :: n :: ns) outs ((m, some .throws) :: ends)
  | nop {e : ExprId} {os : List Operation} {n : NodeId} {ns : List NodeId}
      {ins outs ends : List OpenEdge} :
    Sits g n .nop (.expr e) parent ins → Spelled g parent os [(n, none)] ns outs ends →
    Spelled g parent os ins (n :: ns) outs ends

/-- A statement up to what it does last. The edges `back` enter behind its own node. -/
inductive Headed (g : Graph) (p : Program) (parent : Option NodeId) (s : StmtId) (st : Stmt)
    (back : List OpenEdge) :
    List OpenEdge → List NodeId → List OpenEdge → List OpenEdge → Prop
  | plain {os : List Operation} {n : NodeId} {ns : List NodeId} {ins outs ends : List OpenEdge} :
    st.lastKind = none → Sits g n .statement (.stmt s) parent ins → p.Spells st.exprs os →
    Spelled g (some n) os ((n, none) :: back) ns outs ends →
    Headed g p parent s st back ins (n :: ns) outs ends
  | last {os : List Operation} {kind : NodeKind} {n k : NodeId} {ns : List NodeId}
      {ins mid ends : List OpenEdge} :
    st.lastKind = some kind → Sits g n .statement (.stmt s) parent ins → p.Spells st.exprs os →
    Spelled g (some n) os ((n, none) :: back) ns mid ends → Sits g k kind (.stmt s) (some n) mid →
    Headed g p parent s st back ins (n :: (ns ++ [k])) [(k, none)] ends

/-- Statements laid out in a graph. -/
inductive Laid (g : Graph) (p : Program) : Option NodeId → Part →
    List OpenEdge → List NodeId → List OpenEdge → List OpenEdge → Prop
  | block {s : StmtId} {ss : List StmtId} {parent : Option NodeId} {n : NodeId} {ns : List NodeId}
      {ins outs ends : List OpenEdge} : p.stmts.get? s = some (.block ss) →
    Sits g n .block (.stmt s) parent ins →
    Laid g p (some n) (.seq ss) [(n, none)] ns outs ends →
    Laid g p parent (.stmt s) ins (n :: ns) outs ends
  | straight {s : StmtId} {st : Stmt} {parent : Option NodeId} {ns : List NodeId}
      {ins outs ends : List OpenEdge} : p.stmts.get? s = some st → st.isStraight = true →
    Headed g p parent s st [] ins ns outs ends →
    Laid g p parent (.stmt s) ins ns outs ends
  | ret {s : StmtId} {value : Option ExprId} {parent : Option NodeId} {ns : List NodeId}
      {ins outs ends : List OpenEdge} : p.stmts.get? s = some (.ret value) →
    Headed g p parent s (.ret value) [] ins ns outs ends →
    Laid g p parent (.stmt s) ins ns [] (ends ++ outs)
  | branch {s t : StmtId} {c : ExprId} {e : Option StmtId} {parent : Option NodeId} {n k : NodeId}
      {ns ts es : List NodeId} {ins outs₁ outs₂ ends ends₁ ends₂ : List OpenEdge} :
    p.stmts.get? s = some (.branch c t e) →
    Headed g p parent s (.branch c t e) [] ins (n :: ns) [(k, none)] ends →
    Laid g p (some n) (.stmt t) [(k, some .thenBranch)] ts outs₁ ends₁ →
    Laid g p (some n) (.seq e.toList) [(k, some .elseBranch)] es outs₂ ends₂ →
    Laid g p parent (.stmt s) ins (n :: (ns ++ (ts ++ es))) (outs₂ ++ outs₁) (ends ++ (ends₁ ++ ends₂))
  | loop {s b : StmtId} {c : ExprId} {parent : Option NodeId} {n k : NodeId} {ns bs : List NodeId}
      {ins back ends ends₁ : List OpenEdge} : p.stmts.get? s = some (.loop c b) →
    Headed g p parent s (.loop c b) back ins (n :: ns) [(k, none)] ends →
    Laid g p (some n) (.stmt b) [(k, some .thenBranch)] bs back ends₁ →
    Laid g p parent (.stmt s) ins (n :: (ns ++ bs)) [(k, some .elseBranch)] (ends ++ ends₁)
  | nil {parent : Option NodeId} {ins : List OpenEdge} : Laid g p parent (.seq []) ins [] ins []
  | cons {s : StmtId} {ss : List StmtId} {parent : Option NodeId} {ns ms : List NodeId}
      {ins mid outs ends₁ ends₂ : List OpenEdge} :
    Laid g p parent (.stmt s) ins ns mid ends₁ →
    Laid g p parent (.seq ss) mid ms outs ends₂ →
    Laid g p parent (.seq (s :: ss)) ins (ns ++ ms) outs (ends₁ ++ ends₂)

/-- The graph of a body: its statements, and the end of the method after them. -/
def Graph.LaidOut (g : Graph) (p : Program) (body : StmtId) : Prop :=
  ∃ ns last outs ends, g.order = ns ++ [last] ∧ Laid g p none (.stmt body) [] ns outs ends ∧
    Sits g last .finish .none none (outs ++ ends)

/-! ### Statements taken apart -/

section Inversion

variable {g : Graph} {p : Program} {parent : Option NodeId} {s : StmtId} {st : Stmt}
  {back ins outs ends : List OpenEdge} {ns : List NodeId}

/-- A statement that does nothing last, taken apart. -/
theorem Headed.exists_plain (h : Headed g p parent s st back ins ns outs ends)
    (hst : st.lastKind = none) : ∃ os n row, ns = n :: row ∧
      Sits g n .statement (.stmt s) parent ins ∧ p.Spells st.exprs os ∧
      Spelled g (some n) os ((n, none) :: back) row outs ends := by
  cases h with
  | plain _ hn hos hrow => exact ⟨_, _, _, rfl, hn, hos, hrow⟩
  | last hkind => cases hst.symm.trans hkind

/-- A statement that does something last, taken apart. -/
theorem Headed.exists_last {kind : NodeKind} (h : Headed g p parent s st back ins ns outs ends)
    (hst : st.lastKind = some kind) : ∃ os n k row mid, ns = n :: (row ++ [k]) ∧
      outs = [(k, none)] ∧ Sits g n .statement (.stmt s) parent ins ∧ p.Spells st.exprs os ∧
      Spelled g (some n) os ((n, none) :: back) row mid ends ∧ Sits g k kind (.stmt s) (some n) mid := by
  cases h with
  | plain hnone => cases hst.symm.trans hnone
  | last hkind hn hos hrow hk =>
    cases hst.symm.trans hkind
    exact ⟨_, _, _, _, _, rfl, rfl, hn, hos, hrow, hk⟩

theorem Laid.of_block {ss : List StmtId} (h : Laid g p parent (.stmt s) ins ns outs ends)
    (hs : p.stmts.get? s = some (.block ss)) : ∃ n rest, ns = n :: rest ∧
      Sits g n .block (.stmt s) parent ins ∧ Laid g p (some n) (.seq ss) [(n, none)] rest outs ends := by
  cases h with
  | block hs' hn hinner =>
    cases hs.symm.trans hs'
    exact ⟨_, _, rfl, hn, hinner⟩
  | straight hs' hst =>
    cases hs.symm.trans hs'
    cases hst
  | ret hs' | branch hs' | loop hs' => cases hs.symm.trans hs'

theorem Laid.of_straight (h : Laid g p parent (.stmt s) ins ns outs ends)
    (hs : p.stmts.get? s = some st) (hst : st.isStraight = true) :
    Headed g p parent s st [] ins ns outs ends := by
  cases h with
  | straight hs' _ hhead =>
    cases hs.symm.trans hs'
    exact hhead
  | block hs' | ret hs' | branch hs' | loop hs' =>
    cases hs.symm.trans hs'
    cases hst

theorem Laid.of_ret {value : Option ExprId} (h : Laid g p parent (.stmt s) ins ns outs ends)
    (hs : p.stmts.get? s = some (.ret value)) : ∃ outs' ends', outs = [] ∧ ends = ends' ++ outs' ∧
      Headed g p parent s (.ret value) [] ins ns outs' ends' := by
  cases h with
  | ret hs' hhead =>
    cases hs.symm.trans hs'
    exact ⟨_, _, rfl, rfl, hhead⟩
  | straight hs' hst =>
    cases hs.symm.trans hs'
    cases hst
  | block hs' | branch hs' | loop hs' => cases hs.symm.trans hs'

theorem Laid.of_branch {c : ExprId} {t : StmtId} {e : Option StmtId}
    (h : Laid g p parent (.stmt s) ins ns outs ends)
    (hs : p.stmts.get? s = some (.branch c t e)) :
    ∃ n k row ts es outs₁ outs₂ ends₀ ends₁ ends₂, ns = n :: (row ++ (ts ++ es)) ∧
      outs = outs₂ ++ outs₁ ∧ ends = ends₀ ++ (ends₁ ++ ends₂) ∧
      Headed g p parent s (.branch c t e) [] ins (n :: row) [(k, none)] ends₀ ∧
      Laid g p (some n) (.stmt t) [(k, some .thenBranch)] ts outs₁ ends₁ ∧
      Laid g p (some n) (.seq e.toList) [(k, some .elseBranch)] es outs₂ ends₂ := by
  cases h with
  | branch hs' hhead hthen helse =>
    cases hs.symm.trans hs'
    exact ⟨_, _, _, _, _, _, _, _, _, _, rfl, rfl, rfl, hhead, hthen, helse⟩
  | straight hs' hst =>
    cases hs.symm.trans hs'
    cases hst
  | block hs' | ret hs' | loop hs' => cases hs.symm.trans hs'

theorem Laid.of_loop {c : ExprId} {t : StmtId} (h : Laid g p parent (.stmt s) ins ns outs ends)
    (hs : p.stmts.get? s = some (.loop c t)) :
    ∃ n k row ts back ends₀ ends₁, ns = n :: (row ++ ts) ∧ outs = [(k, some .elseBranch)] ∧
      ends = ends₀ ++ ends₁ ∧
      Headed g p parent s (.loop c t) back ins (n :: row) [(k, none)] ends₀ ∧
      Laid g p (some n) (.stmt t) [(k, some .thenBranch)] ts back ends₁ := by
  cases h with
  | loop hs' hhead hbody =>
    cases hs.symm.trans hs'
    exact ⟨_, _, _, _, _, _, _, rfl, rfl, rfl, hhead, hbody⟩
  | straight hs' hst =>
    cases hs.symm.trans hs'
    cases hst
  | block hs' | ret hs' | branch hs' => cases hs.symm.trans hs'

end Inversion

/-! ### Other graphs with the same nodes -/

/-- A node is the same in two graphs, and entered in the same way. -/
def SameNode (g g' : Graph) (n : NodeId) : Prop :=
  g'.nodes.get? n = g.nodes.get? n ∧ g'.arrivals n = g.arrivals n

section Transport

variable {g g' : Graph} {p : Program} {parent : Option NodeId} {ns : List NodeId}
  {ins outs ends : List OpenEdge}

theorem Sits.transport {n : NodeId} {kind : NodeKind} {origin : Origin}
    (h : Sits g n kind origin parent ins) (hn : SameNode g g' n) :
    Sits g' n kind origin parent ins :=
  ⟨hn.1.trans h.node, hn.2.trans h.arrivals⟩

theorem Spelled.transport {os : List Operation} (h : Spelled g parent os ins ns outs ends)
    (hns : ∀ n ∈ ns, SameNode g g' n) : Spelled g' parent os ins ns outs ends := by
  induction h with
  | nil => exact .nil
  | op hn _ ih =>
    rw [List.forall_mem_cons] at hns
    exact .op (hn.transport hns.1) (ih hns.2)
  | call ho hm hn _ ih =>
    rw [List.forall_mem_cons, List.forall_mem_cons] at hns
    exact .call ho (hm.transport hns.1) (hn.transport hns.2.1) (ih hns.2.2)
  | nop hn _ ih =>
    rw [List.forall_mem_cons] at hns
    exact .nop (hn.transport hns.1) (ih hns.2)

theorem Headed.transport {s : StmtId} {st : Stmt} {back : List OpenEdge}
    (h : Headed g p parent s st back ins ns outs ends) (hns : ∀ n ∈ ns, SameNode g g' n) :
    Headed g' p parent s st back ins ns outs ends := by
  cases h with
  | plain hst hn hos h =>
    rw [List.forall_mem_cons] at hns
    exact .plain hst (hn.transport hns.1) hos (h.transport hns.2)
  | last hst hn hos h hk =>
    rw [List.forall_mem_cons, List.forall_mem_append] at hns
    exact .last hst (hn.transport hns.1) hos (h.transport hns.2.1)
      (hk.transport (hns.2.2 _ (List.mem_singleton_self _)))

theorem Laid.transport {part : Part} (h : Laid g p parent part ins ns outs ends)
    (hns : ∀ n ∈ ns, SameNode g g' n) : Laid g' p parent part ins ns outs ends := by
  induction h with
  | block hs hn _ ih =>
    rw [List.forall_mem_cons] at hns
    exact .block hs (hn.transport hns.1) (ih hns.2)
  | straight hs hst h => exact .straight hs hst (h.transport hns)
  | ret hs h => exact .ret hs (h.transport hns)
  | branch hs h _ _ iht ihe =>
    rw [← List.cons_append, List.forall_mem_append, List.forall_mem_append] at hns
    exact .branch hs (h.transport hns.1) (iht hns.2.1) (ihe hns.2.2)
  | loop hs h _ ih =>
    rw [← List.cons_append, List.forall_mem_append] at hns
    exact .loop hs (h.transport hns.1) (ih hns.2)
  | nil => exact .nil
  | cons _ _ ih₁ ih₂ =>
    rw [List.forall_mem_append] at hns
    exact .cons (ih₁ hns.1) (ih₂ hns.2)

/-- A row entered in another way at its first node. -/
theorem Spelled.enterBy {os : List Operation} {n : NodeId} {ins' : List OpenEdge}
    (h : Spelled g parent os ins (n :: ns) outs ends) (hnode : g'.nodes.get? n = g.nodes.get? n)
    (harr : g'.arrivals n = ins') (hns : ∀ m ∈ ns, SameNode g g' m) :
    Spelled g' parent os ins' (n :: ns) outs ends := by
  cases h with
  | op hn h => exact .op ⟨hnode.trans hn.node, harr⟩ (h.transport hns)
  | call ho hm hn h =>
    rw [List.forall_mem_cons] at hns
    exact .call ho ⟨hnode.trans hm.node, harr⟩ (hn.transport hns.1) (h.transport hns.2)
  | nop hn h => exact .nop ⟨hnode.trans hn.node, harr⟩ (h.transport hns)

theorem Spelled.arrivals_head {os : List Operation} {n : NodeId}
    (h : Spelled g parent os ins (n :: ns) outs ends) : g.arrivals n = ins := by
  cases h with
  | op hn | nop hn => exact hn.arrivals
  | call _ hm => exact hm.arrivals

theorem Headed.arrivals_second {s : StmtId} {st : Stmt} {back : List OpenEdge} {n m : NodeId}
    (h : Headed g p parent s st back ins (n :: m :: ns) outs ends) :
    g.arrivals m = (n, none) :: back := by
  generalize hall : n :: m :: ns = all at h
  cases h with
  | plain _ _ _ h =>
    obtain ⟨rfl, rfl⟩ := List.cons.inj hall
    exact h.arrivals_head
  | @last _ _ _ k row _ _ _ _ _ _ h hk =>
    obtain ⟨rfl, hrow⟩ := List.cons.inj hall
    cases row with
    | nil =>
      obtain ⟨rfl, rfl⟩ : m = k ∧ ns = [] := by simpa using hrow
      cases h with
      | nil => exact hk.arrivals
    | cons m' row =>
      obtain ⟨rfl, rfl⟩ : m = m' ∧ ns = row ++ [k] := by simpa using hrow
      exact h.arrivals_head

/-- The statement of a loop, once edges lead back behind its own node. -/
theorem Headed.withBack {s : StmtId} {st : Stmt} {back : List OpenEdge} {n m k : NodeId}
    (h : Headed g p parent s st [] ins (n :: m :: ns) [(k, none)] ends)
    (hst : st.lastKind ≠ none) (hn : SameNode g g' n) (hnode : g'.nodes.get? m = g.nodes.get? m)
    (harr : g'.arrivals m = (n, none) :: back) (hns : ∀ m ∈ ns, SameNode g g' m) :
    Headed g' p parent s st back ins (n :: m :: ns) [(k, none)] ends := by
  generalize hall : n :: m :: ns = all at h
  generalize hout : [(k, (none : Option Label))] = out at h
  cases h with
  | plain hnone => exact absurd hnone hst
  | @last _ _ n' k' row _ _ _ hlast hn' hos h hk =>
    obtain ⟨rfl, hrow⟩ := List.cons.inj hall
    obtain rfl : k = k' := by simpa using hout
    cases row with
    | nil =>
      -- No operation in between: the edges enter where the statement parts.
      obtain ⟨rfl, rfl⟩ : m = k ∧ ns = [] := by simpa using hrow
      cases h with
      | nil => exact .last hlast (hn'.transport hn) hos .nil ⟨hnode.trans hk.node, harr⟩
    | cons m' row =>
      obtain ⟨rfl, rfl⟩ : m = m' ∧ ns = row ++ [k] := by simpa using hrow
      rw [List.forall_mem_append] at hns
      exact .last hlast (hn'.transport hn) hos (h.enterBy hnode harr hns.1)
        (hk.transport (hns.2 _ (List.mem_singleton_self _)))

end Transport

/-! ### Where open edges begin -/

section Sources

variable {g : Graph} {p : Program} {parent : Option NodeId} {ns : List NodeId}
  {ins outs ends : List OpenEdge} {a : OpenEdge}

theorem Spelled.source_of_mem_outs {os : List Operation}
    (h : Spelled g parent os ins ns outs ends) (ha : a ∈ outs) : a ∈ ins ∨ a.1 ∈ ns := by
  induction h with
  | nil => exact .inl ha
  | op _ _ ih | nop _ _ ih | call _ _ _ _ ih =>
    right
    rcases ih ha with hmem | hmem
    · rw [List.mem_singleton.1 hmem]
      simp
    · simp [hmem]

theorem Spelled.source_of_mem_ends {os : List Operation}
    (h : Spelled g parent os ins ns outs ends) (ha : a ∈ ends) : a.1 ∈ ns := by
  induction h with
  | nil => exact absurd ha List.not_mem_nil
  | op _ _ ih | nop _ _ ih => exact List.mem_cons_of_mem _ (ih ha)
  | call _ _ _ _ ih =>
    rcases List.mem_cons.1 ha with rfl | ha
    · exact List.mem_cons_self
    · exact List.mem_cons_of_mem _ (List.mem_cons_of_mem _ (ih ha))

theorem Headed.source_of_mem_outs {s : StmtId} {st : Stmt} {back : List OpenEdge}
    (h : Headed g p parent s st back ins ns outs ends) (ha : a ∈ outs) : a ∈ back ∨ a.1 ∈ ns := by
  cases h with
  | plain _ _ _ h =>
    rcases h.source_of_mem_outs ha with hmem | hmem
    · rcases List.mem_cons.1 hmem with rfl | hmem
      · exact .inr List.mem_cons_self
      · exact .inl hmem
    · exact .inr (List.mem_cons_of_mem _ hmem)
  | last =>
    rw [List.mem_singleton.1 ha]
    simp

theorem Headed.source_of_lastKind {s : StmtId} {st : Stmt} {back : List OpenEdge} {kind : NodeKind}
    (h : Headed g p parent s st back ins ns outs ends) (hst : st.lastKind = some kind)
    (ha : a ∈ outs) : a.1 ∈ ns := by
  cases h with
  | plain hnone => rw [hst] at hnone; cases hnone
  | last =>
    rw [List.mem_singleton.1 ha]
    simp

theorem Headed.source_of_mem_ends {s : StmtId} {st : Stmt} {back : List OpenEdge}
    (h : Headed g p parent s st back ins ns outs ends) (ha : a ∈ ends) : a.1 ∈ ns := by
  cases h with
  | plain _ _ _ h => exact List.mem_cons_of_mem _ (h.source_of_mem_ends ha)
  | last _ _ _ h =>
    exact List.mem_cons_of_mem _ (List.mem_append_left _ (h.source_of_mem_ends ha))

theorem Laid.source_of_mem {part : Part} (h : Laid g p parent part ins ns outs ends) :
    (∀ a ∈ outs, a ∈ ins ∨ a.1 ∈ ns) ∧ ∀ a ∈ ends, a.1 ∈ ns := by
  induction h with
  | block _ _ _ ih =>
    refine ⟨fun a ha => .inr ?_, fun a ha => List.mem_cons_of_mem _ (ih.2 a ha)⟩
    rcases ih.1 a ha with hmem | hmem
    · rw [List.mem_singleton.1 hmem]
      exact List.mem_cons_self
    · exact List.mem_cons_of_mem _ hmem
  | straight _ _ h =>
    exact ⟨fun a ha => .inr ((h.source_of_mem_outs ha).resolve_left List.not_mem_nil),
      fun a ha => h.source_of_mem_ends ha⟩
  | ret _ h =>
    refine ⟨fun a ha => absurd ha List.not_mem_nil, fun a ha => ?_⟩
    rcases List.mem_append.1 ha with ha | ha
    · exact h.source_of_mem_ends ha
    · exact h.source_of_lastKind rfl ha
  | branch _ h _ _ iht ihe =>
    have hk := h.source_of_lastKind rfl (List.mem_singleton_self _)
    rw [← List.cons_append]
    constructor
    · intro a ha
      right
      rcases List.mem_append.1 ha with ha | ha
      · rcases ihe.1 a ha with hmem | hmem
        · rw [List.mem_singleton.1 hmem]
          exact List.mem_append_left _ hk
        · exact List.mem_append_right _ (List.mem_append_right _ hmem)
      · rcases iht.1 a ha with hmem | hmem
        · rw [List.mem_singleton.1 hmem]
          exact List.mem_append_left _ hk
        · exact List.mem_append_right _ (List.mem_append_left _ hmem)
    · intro a ha
      rcases List.mem_append.1 ha with ha | ha
      · exact List.mem_append_left _ (h.source_of_mem_ends ha)
      · exact List.mem_append_right _
          (List.mem_append.2 ((List.mem_append.1 ha).imp (iht.2 a) (ihe.2 a)))
  | loop _ h _ ih =>
    have hk := h.source_of_lastKind rfl (List.mem_singleton_self _)
    rw [← List.cons_append]
    constructor
    · intro a ha
      rw [List.mem_singleton.1 ha]
      exact .inr (List.mem_append_left _ hk)
    · intro a ha
      exact List.mem_append.2 ((List.mem_append.1 ha).imp h.source_of_mem_ends (ih.2 a))
  | nil => exact ⟨fun a ha => .inl ha, fun a ha => absurd ha List.not_mem_nil⟩
  | cons _ _ ih₁ ih₂ =>
    constructor
    · intro a ha
      rcases ih₂.1 a ha with hmem | hmem
      · exact (ih₁.1 a hmem).imp_right (List.mem_append_left _)
      · exact .inr (List.mem_append_right _ hmem)
    · intro a ha
      exact List.mem_append.2 ((List.mem_append.1 ha).imp (ih₁.2 a) (ih₂.2 a))

end Sources

/-! ### The order of the nodes -/

/-- Some of the open edges begin in `known`, if there are any. -/
def Reached (known : Set NodeId) (edges : List OpenEdge) : Prop :=
  edges = [] ∨ ∃ a ∈ edges, a.1 ∈ known

/-- Every node that is entered at all is entered from one in `known` or before it. -/
def Fed (g : Graph) : Set NodeId → List NodeId → Prop
  | _, [] => True
  | known, n :: ns => Reached known (g.arrivals n) ∧ Fed g (insert n known) ns

section Fed

variable {g : Graph} {p : Program} {parent : Option NodeId} {ns ms : List NodeId}
  {ins outs ends : List OpenEdge} {known : Set NodeId}

theorem Reached.mono {known' : Set NodeId} {edges : List OpenEdge} (h : Reached known edges)
    (hsub : known ⊆ known') : Reached known' edges :=
  h.imp_right fun ⟨a, ha, hk⟩ => ⟨a, ha, hsub hk⟩

theorem reached_singleton {n : NodeId} {label : Option Label} (hn : n ∈ known) :
    Reached known [(n, label)] :=
  .inr ⟨_, List.mem_singleton_self _, hn⟩

theorem Reached.relabel {n : NodeId} {label label' : Option Label}
    (h : Reached known [(n, label)]) : Reached known [(n, label')] := by
  simpa [Reached] using h

theorem fed_append : Fed g known (ns ++ ms) ↔ Fed g known ns ∧ Fed g (known ∪ {n | n ∈ ns}) ms := by
  induction ns generalizing known with
  | nil => simp [Fed]
  | cons n ns ih =>
    have hset : insert n known ∪ {m | m ∈ ns} = known ∪ {m | m ∈ n :: ns} := by
      ext m
      simp only [Set.mem_union, Set.mem_insert_iff, Set.mem_ofPred_eq, List.mem_cons]
      tauto
    rw [List.cons_append, Fed, Fed, ih, hset, and_assoc]

theorem Spelled.fed {os : List Operation} (h : Spelled g parent os ins ns outs ends)
    (hins : Reached known ins) : Fed g known ns ∧ Reached (known ∪ {n | n ∈ ns}) outs := by
  induction h generalizing known with
  | nil => exact ⟨trivial, hins.mono Set.subset_union_left⟩
  | op hn _ ih | nop hn _ ih =>
    obtain ⟨hfed, hout⟩ := ih (reached_singleton (Set.mem_insert _ known))
    refine ⟨⟨hn.arrivals ▸ hins, hfed⟩, hout.mono fun m hm => ?_⟩
    simp only [Set.mem_union, Set.mem_insert_iff, Set.mem_ofPred_eq, List.mem_cons] at hm ⊢
    tauto
  | call _ hm hn _ ih =>
    obtain ⟨hfed, hout⟩ := ih (reached_singleton (Set.mem_insert _ (insert _ known)))
    refine ⟨⟨hm.arrivals ▸ hins, hn.arrivals ▸ reached_singleton (Set.mem_insert _ _), hfed⟩,
      hout.mono fun m hm => ?_⟩
    simp only [Set.mem_union, Set.mem_insert_iff, Set.mem_ofPred_eq, List.mem_cons] at hm ⊢
    tauto

theorem Headed.fed {s : StmtId} {st : Stmt} {back : List OpenEdge}
    (h : Headed g p parent s st back ins ns outs ends) (hins : Reached known ins) :
    Fed g known ns ∧ Reached (known ∪ {n | n ∈ ns}) outs := by
  have hrow : ∀ n, Reached (insert n known) ((n, none) :: back) := fun n =>
    .inr ⟨_, List.mem_cons_self, Set.mem_insert _ _⟩
  cases h with
  | plain _ hn _ h =>
    obtain ⟨hfed, hout⟩ := h.fed (hrow _)
    refine ⟨⟨hn.arrivals ▸ hins, hfed⟩, hout.mono fun m hm => ?_⟩
    simp only [Set.mem_union, Set.mem_insert_iff, Set.mem_ofPred_eq, List.mem_cons] at hm ⊢
    tauto
  | last _ hn _ h hk =>
    obtain ⟨hfed, hout⟩ := h.fed (hrow _)
    refine ⟨⟨hn.arrivals ▸ hins, fed_append.2 ⟨hfed, hk.arrivals ▸ hout, trivial⟩⟩, ?_⟩
    exact reached_singleton (.inr (by simp))

theorem Laid.fed {part : Part} (h : Laid g p parent part ins ns outs ends)
    (hins : Reached known ins) : Fed g known ns ∧ Reached (known ∪ {n | n ∈ ns}) outs := by
  induction h generalizing known with
  | block _ hn _ ih =>
    obtain ⟨hfed, hout⟩ := ih (reached_singleton (Set.mem_insert _ known))
    refine ⟨⟨hn.arrivals ▸ hins, hfed⟩, hout.mono fun m hm => ?_⟩
    simp only [Set.mem_union, Set.mem_insert_iff, Set.mem_ofPred_eq, List.mem_cons] at hm ⊢
    tauto
  | straight _ _ h => exact h.fed hins
  | ret _ h => exact ⟨(h.fed hins).1, .inl rfl⟩
  | branch _ h _ _ iht ihe =>
    obtain ⟨hfed, hmid⟩ := h.fed hins
    obtain ⟨hfedt, houtt⟩ := iht hmid.relabel
    obtain ⟨hfede, houte⟩ := ihe (hmid.relabel.mono Set.subset_union_left)
    rw [← List.cons_append]
    refine ⟨fed_append.2 ⟨hfed, fed_append.2 ⟨hfedt, hfede⟩⟩, ?_⟩
    -- Of the two ways out, one that is taken at all begins at a node of the branch.
    rcases houte with rfl | ⟨a, ha, hmem⟩
    · refine houtt.mono fun m hm => ?_
      simp only [Set.mem_union, Set.mem_ofPred_eq, List.mem_append] at hm ⊢
      tauto
    · refine .inr ⟨a, List.mem_append_left _ ha, ?_⟩
      simp only [Set.mem_union, Set.mem_ofPred_eq, List.mem_append] at hmem ⊢
      tauto
  | loop _ h _ ih =>
    obtain ⟨hfed, hmid⟩ := h.fed hins
    obtain ⟨hfedb, _⟩ := ih hmid.relabel
    rw [← List.cons_append]
    refine ⟨fed_append.2 ⟨hfed, hfedb⟩, hmid.relabel.mono fun m hm => ?_⟩
    simp only [Set.mem_union, Set.mem_ofPred_eq, List.mem_append] at hm ⊢
    tauto
  | nil => exact ⟨trivial, hins.mono Set.subset_union_left⟩
  | cons _ _ ih₁ ih₂ =>
    obtain ⟨hfed₁, hout₁⟩ := ih₁ hins
    obtain ⟨hfed₂, hout₂⟩ := ih₂ hout₁
    refine ⟨fed_append.2 ⟨hfed₁, hfed₂⟩, hout₂.mono fun m hm => ?_⟩
    simp only [Set.mem_union, Set.mem_ofPred_eq, List.mem_append] at hm ⊢
    tauto

/-- In a graph that follows a body, every node that is entered at all is entered from a node
    strictly before it. -/
theorem Graph.LaidOut.fed {body : StmtId} (h : g.LaidOut p body) : Fed g ∅ g.order := by
  obtain ⟨ns, last, outs, ends, horder, hlaid, hlast⟩ := h
  have hstart : Reached (∅ : Set NodeId) [] := .inl rfl
  obtain ⟨hfed, hout⟩ := hlaid.fed hstart
  rw [horder, fed_append]
  refine ⟨hfed, ?_, trivial⟩
  rw [hlast.arrivals]
  rcases hout with rfl | ⟨a, ha, hmem⟩
  · cases ends with
    | nil => exact .inl rfl
    | cons a ends =>
      exact .inr ⟨a, List.mem_cons_self, .inr (hlaid.source_of_mem.2 a List.mem_cons_self)⟩
  · exact .inr ⟨a, List.mem_append_left _ ha, hmem⟩

theorem Fed.precedes (h : Fed g known ns) {before after : List NodeId} {n : NodeId}
    (hns : ns = before ++ n :: after) : Reached (known ∪ {m | m ∈ before}) (g.arrivals n) := by
  rw [hns, fed_append] at h
  exact h.2.1

theorem Graph.LaidOut.ordered {body : StmtId} (h : g.LaidOut p body) (hg : g.Wired) :
    Direction.forward.Ordered g := by
  intro n hn hin
  obtain ⟨before, after, horder⟩ := List.append_of_mem hn
  rcases h.fed.precedes horder with hnil | ⟨⟨k, label⟩, ha, hk⟩
  · exact absurd (hg.arrivals_eq_nil_iff.1 hnil) hin
  · obtain ⟨e, he⟩ := hg.mem_arrivals_iff.1 ⟨label, ha⟩
    exact ⟨e, k, he, before, after, horder, by simpa using hk⟩

end Fed

end Dataflow
