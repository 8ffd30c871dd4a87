import Dataflow.Proofs.Drafts
import Dataflow.Proofs.Evaluation
import Mathlib.Logic.Relation

/-!
# Runs as paths

A run of the evaluator follows a path through the graph of the body: it takes the nodes of the
operations, tests and returns that happen in the run, in the order they happen, leaves every
test on the side that the condition decides and never throws. The proof goes by induction on the
derivation of the run, along the layout of the graph (`Laid`): each part of the body, entered
by one of its open edges, is left by another one.

* `Graph.observe`: the event that taking a node stands for;
* `Spelled.passes`, `Runs.passes`: a row of operations and a task lead through their stretches;
* `Graph.exists_route_of_run`: a run of a whole body, from entry to end.
-/

namespace Dataflow

/-! ### Paths and what is seen of them -/

/-- The kinds of nodes that stand for an event of a run. -/
def NodeKind.isEvent : NodeKind → Bool
  | read _ | write .. | readWrite _ | call _ | conditional _ | goto => true
  | nop | statement | block | optionalThrow _ | finish => false

/-- Whether taking an edge with this label out of a node decides a test, and how. -/
def NodeKind.decided (label : Option Label) : NodeKind → Option Bool
  | conditional _ => some (label = some .thenBranch)
  | _ => none

namespace Graph

/-- The event seen when a node is taken and left by an edge with a label. -/
def observe (g : Graph) (step : OpenEdge) : Option Event :=
  (g.nodes.get? step.1).bind fun node =>
    if node.kind.isEvent then some ⟨node.kind, node.origin, node.kind.decided step.2⟩ else none

/-- A step by which no call throws. -/
def Returns (g : Graph) (step : OpenEdge) : Prop :=
  ∀ node e, g.nodes.get? step.1 = some node → node.kind = .optionalThrow e →
    step.2 = some .noThrow

/-- A path: each step is a node and the label of the edge that leads to the next node. -/
inductive Route (g : Graph) : NodeId → List OpenEdge → NodeId → Prop
  | nil {n : NodeId} : Route g n [] n
  | cons {n m last : NodeId} {label : Option Label} {steps : List OpenEdge} :
    (n, label) ∈ g.arrivals m → Route g m steps last → Route g n ((n, label) :: steps) last

/-- Steps that lead from one open edge to another, over all nodes between them. -/
inductive Leads (g : Graph) : OpenEdge → List OpenEdge → OpenEdge → Prop
  | nil {a : OpenEdge} : Leads g a [] a
  | cons {a b c : OpenEdge} {steps : List OpenEdge} :
    a ∈ g.arrivals c.1 → Leads g c steps b → Leads g a (c :: steps) b

/-- Events seen on a way from one open edge to another on which no call throws. -/
def Passes (g : Graph) (a : OpenEdge) (events : List Event) (b : OpenEdge) : Prop :=
  ∃ steps, g.Leads a steps b ∧ steps.filterMap g.observe = events ∧ ∀ c ∈ steps, g.Returns c

variable {g : Graph} {a b c : OpenEdge} {steps steps' : List OpenEdge}
  {events later : List Event}

theorem Leads.append (h : g.Leads a steps b) (h' : g.Leads b steps' c) :
    g.Leads a (steps ++ steps') c := by
  induction h with
  | nil => exact h'
  | cons hc _ ih => exact .cons hc (ih h')

/-- Steps between open edges, begun at the node of the first and ended at a node that the last
    one enters. -/
theorem Leads.route {last : NodeId} (h : g.Leads a steps b) (hb : b ∈ g.arrivals last) :
    g.Route a.1 (a :: steps) last := by
  induction h with
  | nil => exact .cons hb .nil
  | cons hc _ ih => exact .cons hc (ih hb)

namespace Passes

theorem refl (g : Graph) (a : OpenEdge) : g.Passes a [] a :=
  ⟨[], .nil, rfl, fun _ h => absurd h List.not_mem_nil⟩

theorem trans (h : g.Passes a events b) (h' : g.Passes b later c) :
    g.Passes a (events ++ later) c := by
  obtain ⟨steps, hlead, rfl, hreturns⟩ := h
  obtain ⟨steps', hlead', rfl, hreturns'⟩ := h'
  exact ⟨steps ++ steps', hlead.append hlead', List.filterMap_append,
    List.forall_mem_append.2 ⟨hreturns, hreturns'⟩⟩

/-- One more node taken first. -/
theorem step (ha : a ∈ g.arrivals c.1) (hc : g.Returns c) (h : g.Passes c events b) :
    g.Passes a ((g.observe c).toList ++ events) b := by
  obtain ⟨steps, hlead, rfl, hreturns⟩ := h
  refine ⟨c :: steps, .cons ha hlead, ?_, List.forall_mem_cons.2 ⟨hc, hreturns⟩⟩
  rw [List.filterMap_cons]
  cases g.observe c <;> rfl

end Passes

end Graph

section Nodes

variable {g : Graph} {n : NodeId} {kind : NodeKind} {origin : Origin} {parent : Option NodeId}
  {ins : List OpenEdge} {a b : OpenEdge} {label : Option Label} {events : List Event}

theorem Sits.observe_eq (h : Sits g n kind origin parent ins) :
    g.observe (n, label) = if kind.isEvent then some ⟨kind, origin, kind.decided label⟩ else none := by
  rw [Graph.observe, h.node, Option.bind_some]

theorem Sits.returns (h : Sits g n kind origin parent ins)
    (hkind : ∀ e, kind = .optionalThrow e → label = some .noThrow) : g.Returns (n, label) := by
  intro node e hnode he
  cases h.node.symm.trans hnode
  exact hkind e he

/-- A node that stands for an event is taken. -/
theorem Sits.passes_event (h : Sits g n kind origin parent ins) (hkind : kind.isEvent = true)
    (ha : a ∈ ins) (hb : g.Passes (n, label) events b) :
    g.Passes a (⟨kind, origin, kind.decided label⟩ :: events) b := by
  have hstep := hb.step (h.arrivals ▸ ha)
    (h.returns fun e he => by rw [he] at hkind; cases hkind)
  rwa [h.observe_eq, if_pos hkind] at hstep

/-- A node that stands for no event is taken. -/
theorem Sits.passes_silent (h : Sits g n kind origin parent ins) (hkind : kind.isEvent = false)
    (hlabel : ∀ e, kind = .optionalThrow e → label = some .noThrow)
    (ha : a ∈ ins) (hb : g.Passes (n, label) events b) : g.Passes a events b := by
  have hstep := hb.step (h.arrivals ▸ ha) (h.returns hlabel)
  rwa [h.observe_eq, if_neg (by rw [hkind]; decide)] at hstep

end Nodes

/-! ### Expressions -/

/-- The event of an operation. -/
def Operation.event (o : Operation) : Event := ⟨o.kind, .expr o.expr, none⟩

theorem NodeKind.isEvent_of_isOperation {kind : NodeKind} (h : kind.isOperation = true) :
    kind.isEvent = true := by
  cases kind <;> simp_all [isOperation, isEvent]

theorem NodeKind.decided_of_isOperation {kind : NodeKind} (h : kind.isOperation = true)
    (label : Option Label) : kind.decided label = none := by
  cases kind <;> simp_all [isOperation, decided]

/-- A row of operations leads through its stretch. -/
theorem Spelled.passes {g : Graph} {parent : Option NodeId} {os : List Operation}
    {ins outs ends : List OpenEdge} {ns : List NodeId} {a : OpenEdge}
    (h : Spelled g parent os ins ns outs ends) (hos : ∀ o ∈ os, o.kind.isOperation = true)
    (ha : a ∈ ins) : ∃ b ∈ outs, g.Passes a (os.map Operation.event) b := by
  induction h generalizing a with
  | nil => exact ⟨a, ha, .refl g a⟩
  | op hn _ ih =>
    rw [List.forall_mem_cons] at hos
    obtain ⟨b, hb, hpass⟩ := ih hos.2 (List.mem_singleton_self _)
    have hstep := hn.passes_event (NodeKind.isEvent_of_isOperation hos.1) ha hpass
    rw [NodeKind.decided_of_isOperation hos.1] at hstep
    exact ⟨b, hb, hstep⟩
  | call ho hm hn _ ih =>
    rw [List.forall_mem_cons] at hos
    obtain ⟨b, hb, hpass⟩ := ih hos.2 (List.mem_singleton_self _)
    have hstep := hn.passes_event rfl (List.mem_singleton_self _) hpass
    refine ⟨b, hb, hm.passes_silent rfl (fun _ _ => rfl) ha ?_⟩
    rw [List.map_cons, Operation.event, ho]
    exact hstep
  | nop hn _ ih =>
    obtain ⟨b, hb, hpass⟩ := ih hos (List.mem_singleton_self _)
    exact ⟨b, hb, hn.passes_silent rfl (fun _ h => by cases h) ha hpass⟩

namespace Program

variable {p : Program}

/-- Every assignment inside a statement is to a variable and not to a field of an object. -/
def AssignsVariables (p : Program) (body : StmtId) : Prop :=
  ∀ e x, p.Inside (.stmt body) (.expr e) → p.exprs.get? e = some x →
    ∀ t ∈ x.targets, ∃ v, p.exprs.get? t = some (.var v)

end Program

theorem Expr.evaluated_subset {x : Expr} {ins : List ExprId} (h : x.evaluated = some ins) :
    ∀ e ∈ ins, e ∈ x.operands := by
  cases x with
  | call method receiver args =>
    cases receiver with
    | none =>
      cases h
      exact fun e he => he
    | some receiver => cases h
  | assign | compound =>
    cases h
    exact fun e he => List.mem_cons_of_mem _ he
  | increment =>
    cases h
    exact fun e he => absurd he List.not_mem_nil
  | _ =>
    cases h <;> exact fun e he => he

theorem Program.target_of_var {p : Program} {t : ExprId} {v : VarId}
    (h : p.exprs.get? t = some (.var v)) :
    p.targetParts t = some (v, []) ∧ p.targetVar t = some v := by
  rw [targetParts, targetVar, h]
  exact ⟨rfl, rfl⟩

/-- What an expression evaluates and does itself is what lowering lists for it, if it assigns to
    variables only. -/
theorem Program.emits_of_act {p : Program} {e : ExprId} {x : Expr} {ins ins' : List ExprId}
    {s mid s' : Memory} {values : List Int64} {a : Int64} {own : List Event} {own' : List Operation}
    (hvars : ∀ t ∈ x.targets, ∃ v, p.exprs.get? t = some (.var v))
    (hins : x.evaluated = some ins) (hact : p.act e s values mid x = some (a, s', own))
    (hemits : p.emits e x = some (ins', own')) : ins' = ins ∧ own = own'.map Operation.event := by
  cases x with
  | int | bool | null | var =>
    cases hins
    cases hact
    cases hemits
    exact ⟨rfl, rfl⟩
  | unary op operand =>
    cases hins
    cases hemits
    obtain ⟨b, _, hact⟩ := Option.map_eq_some_iff.1 hact
    cases hact
    exact ⟨rfl, rfl⟩
  | binary op lhs rhs =>
    cases hins
    cases hemits
    simp only [act, Option.bind_eq_bind, Option.bind_eq_some_iff] at hact
    obtain ⟨b, _, c, _, d, _, hact⟩ := hact
    cases hact
    exact ⟨rfl, rfl⟩
  | assign target value =>
    obtain ⟨v, hv⟩ := hvars target (List.mem_singleton_self _)
    simp only [act, (target_of_var hv).2, Option.bind_eq_bind, Option.bind_some, Option.bind_eq_some_iff] at hact
    obtain ⟨b, _, hact⟩ := hact
    rw [emits, (target_of_var hv).1] at hemits
    cases hins
    cases hact
    cases hemits
    exact ⟨rfl, rfl⟩
  | compound op target value =>
    obtain ⟨v, hv⟩ := hvars target (List.mem_singleton_self _)
    simp only [act, (target_of_var hv).2, Option.bind_eq_bind, Option.bind_some, Option.bind_eq_some_iff] at hact
    obtain ⟨b, _, c, _, hact⟩ := hact
    rw [emits, (target_of_var hv).1] at hemits
    cases hins
    cases hact
    cases hemits
    exact ⟨rfl, rfl⟩
  | increment op target =>
    obtain ⟨v, hv⟩ := hvars target (List.mem_singleton_self _)
    rw [act, (target_of_var hv).2] at hact
    rw [emits, (target_of_var hv).1] at hemits
    cases hins
    cases hact
    cases hemits
    exact ⟨rfl, rfl⟩
  | call method receiver args =>
    cases receiver with
    | some receiver => cases hins
    | none =>
      cases hins
      cases hemits
      simp only [act, Option.bind_eq_bind, Option.bind_eq_some_iff] at hact
      obtain ⟨decl, _, hact⟩ := hact
      split at hact <;> cases hact <;> exact ⟨rfl, rfl⟩
  | field | newObject | newArray => cases hins

/-- The events of an evaluation are the operations that lowering lists, if all assignments are to
    variables. -/
theorem Computes.events_eq {p : Program} {y : Piece} {es l : List ExprId} {s s' : Memory}
    {events : List Event} {values : List Int64} {os : List Operation}
    (h : Computes p es s events values s')
    (hvars : ∀ e x, p.Inside y (.expr e) → p.exprs.get? e = some x →
      ∀ t ∈ x.targets, ∃ v, p.exprs.get? t = some (.var v))
    (hes : ∀ e ∈ es, p.Inside y (.expr e)) (hos : Emits p es l os) :
    events = os.map Operation.event := by
  induction h generalizing l os with
  | nil =>
    cases hos
    rfl
  | cons hx hins _ hact _ ih₁ ih₂ =>
    cases hos with
    | cons hx' hemits hinner hrest =>
      cases hx.symm.trans hx'
      rw [List.forall_mem_cons] at hes
      obtain ⟨rfl, rfl⟩ := Program.emits_of_act (hvars _ _ hes.1 hx) hins hact hemits
      rw [ih₁ (fun o ho => hes.1.operand hx (Expr.evaluated_subset hins o ho)) hinner,
        ih₂ hes.2 hrest, List.map_append, List.map_append]

/-- Evaluated expressions lead through the stretch of their operations. -/
theorem Spelled.passes_computes {g : Graph} {p : Program} {parent : Option NodeId} {y : Piece}
    {os : List Operation} {ins outs ends : List OpenEdge} {ns : List NodeId} {a : OpenEdge}
    {es : List ExprId} {m m' : Memory} {events : List Event} {values : List Int64}
    (h : Spelled g parent os ins ns outs ends) (hos : p.Spells es os)
    (hcomp : Computes p es m events values m')
    (hvars : ∀ e x, p.Inside y (.expr e) → p.exprs.get? e = some x →
      ∀ t ∈ x.targets, ∃ v, p.exprs.get? t = some (.var v))
    (hes : ∀ e ∈ es, p.Inside y (.expr e)) (ha : a ∈ ins) :
    ∃ b ∈ outs, g.Passes a events b := by
  obtain ⟨l, hemits⟩ := Emits.exists_of_spells hos
  rw [hcomp.events_eq hvars hes hemits]
  exact h.passes hemits.isOperation ha

/-! ### Statements -/

/-- The open edge by which a stretch is left: one for the end of the method on a return. -/
def Completion.Leaves (b : OpenEdge) (outs ends : List OpenEdge) : Completion → Prop
  | normal => b ∈ outs
  | returned _ => b ∈ ends

theorem Completion.Leaves.mono {b : OpenEdge} {outs ends outs' ends' : List OpenEdge} {c : Completion}
    (h : c.Leaves b outs ends) (houts : ∀ a ∈ outs, a ∈ outs') (hends : ∀ a ∈ ends, a ∈ ends') :
    c.Leaves b outs' ends' := by
  cases c with
  | normal => exact houts b h
  | returned value => exact hends b h

/-- A node that only marks where a statement begins. -/
def NodeKind.isHead : NodeKind → Bool
  | statement | block => true
  | _ => false

theorem NodeKind.isEvent_of_isHead {kind : NodeKind} (h : kind.isHead = true) :
    kind.isEvent = false := by
  cases kind <;> simp_all [isHead, isEvent]

theorem NodeKind.ne_of_isHead {kind : NodeKind} (h : kind.isHead = true) (e : ExprId) :
    kind ≠ .optionalThrow e := by
  rintro rfl
  cases h

/-- A task inside `body`, wherever it is laid out, leads through its stretch with these events. -/
def Simulated (g : Graph) (p : Program) (body : StmtId) (events : List Event) (c : Completion) :
    Task → Prop
  | .stmt s => ∀ {parent : Option NodeId} {ins outs ends : List OpenEdge} {ns : List NodeId},
    p.Inside (.stmt body) (.stmt s) → Laid g p parent (.stmt s) ins ns outs ends →
    ∃ n kind b, ns.head? = some n ∧ Sits g n kind (.stmt s) parent ins ∧ kind.isHead = true ∧
      g.Passes (n, none) events b ∧ c.Leaves b outs ends
  | .seq ss => ∀ {parent : Option NodeId} {ins outs ends : List OpenEdge} {ns : List NodeId}
    {a : OpenEdge}, (∀ s ∈ ss, p.Inside (.stmt body) (.stmt s)) →
    Laid g p parent (.seq ss) ins ns outs ends → a ∈ ins →
    ∃ b, g.Passes a events b ∧ c.Leaves b outs ends
  | .loop s e t => ∀ {os : List Operation} {n k : NodeId} {row ts : List NodeId}
    {mid back ends ends' : List OpenEdge} {a : OpenEdge}, p.Inside (.stmt body) (.expr e) →
    p.Inside (.stmt body) (.stmt t) → p.Spells [e] os →
    Spelled g (some n) os ((n, none) :: back) row mid ends →
    Sits g k (.conditional e) (.stmt s) (some n) mid →
    Laid g p (some n) (.stmt t) [(k, some .thenBranch)] ts back ends' → a ∈ (n, none) :: back →
    ∃ b, g.Passes a events b ∧ c.Leaves b [(k, some .elseBranch)] ends'

/-- A statement is entered by its first node, which stands for no event. -/
theorem Simulated.enter {g : Graph} {p : Program} {body s : StmtId} {events : List Event}
    {c : Completion} (h : Simulated g p body events c (.stmt s)) {parent : Option NodeId}
    {ins outs ends : List OpenEdge} {ns : List NodeId} {a : OpenEdge}
    (hs : p.Inside (.stmt body) (.stmt s)) (hlaid : Laid g p parent (.stmt s) ins ns outs ends)
    (ha : a ∈ ins) : ∃ b, g.Passes a events b ∧ c.Leaves b outs ends := by
  obtain ⟨n, kind, b, _, hn, hkind, hpass, hleaves⟩ := h hs hlaid
  exact ⟨b, hn.passes_silent (NodeKind.isEvent_of_isHead hkind)
    (fun e he => absurd he (NodeKind.ne_of_isHead hkind e)) ha hpass, hleaves⟩

/-- A run of a task leads through the stretch of the task. -/
theorem Runs.passes {g : Graph} {p : Program} {body : StmtId} {task : Task} {m m' : Memory}
    {events : List Event} {c : Completion} (h : Runs p task m events c m')
    (hvars : p.AssignsVariables body) : Simulated g p body events c task := by
  induction h with
  | block hs _ ih =>
    intro parent ins outs ends ns hin hlaid
    obtain ⟨n, rest, rfl, hn, hinner⟩ := hlaid.of_block hs
    obtain ⟨b, hpass, hleaves⟩ := ih (fun t ht => hin.child hs ht) hinner (List.mem_singleton_self _)
    exact ⟨n, _, b, rfl, hn, rfl, hpass, hleaves⟩
  | @declare s v m hs =>
    intro parent ins outs ends ns hin hlaid
    obtain ⟨os, n, row, rfl, hn, hos, hrow⟩ := (hlaid.of_straight hs rfl).exists_plain rfl
    obtain ⟨b, hb, hpass⟩ := hrow.passes_computes hos (.nil (s := m)) hvars
      (fun e he => absurd he List.not_mem_nil) List.mem_cons_self
    exact ⟨n, _, b, rfl, hn, rfl, hpass, hb⟩
  | init hs he =>
    intro parent ins outs ends ns hin hlaid
    obtain ⟨os, n, k, row, mid, rfl, rfl, hn, hos, hrow, hk⟩ :=
      (hlaid.of_straight hs rfl).exists_last rfl
    obtain ⟨b, hb, hpass⟩ := hrow.passes_computes hos he hvars (fun _ => hin.expr hs) List.mem_cons_self
    exact ⟨n, _, _, rfl, hn, rfl, hpass.trans (hk.passes_event rfl hb (.refl g (k, none))),
      List.mem_singleton_self _⟩
  | expr hs he =>
    intro parent ins outs ends ns hin hlaid
    obtain ⟨os, n, row, rfl, hn, hos, hrow⟩ := (hlaid.of_straight hs rfl).exists_plain rfl
    obtain ⟨b, hb, hpass⟩ := hrow.passes_computes hos he hvars (fun _ => hin.expr hs) List.mem_cons_self
    exact ⟨n, _, b, rfl, hn, rfl, hpass, hb⟩
  | thenBranch hs he _ _ ih =>
    intro parent ins outs ends ns hin hlaid
    obtain ⟨n, k, row, ts, es, outs₁, outs₂, ends₀, ends₁, ends₂, rfl, rfl, rfl, hhead, hthen, _⟩ :=
      hlaid.of_branch hs
    obtain ⟨os, n', k', row', mid, hns, hout, hn, hos, hrow, hk⟩ := hhead.exists_last rfl
    obtain ⟨rfl, rfl⟩ := List.cons.inj hns
    cases hout
    obtain ⟨a, ha, hpass⟩ := hrow.passes_computes hos he hvars (fun _ => hin.expr hs) List.mem_cons_self
    obtain ⟨b, hpass', hleaves⟩ := ih.enter (hin.child hs List.mem_cons_self) hthen (List.mem_singleton_self _)
    refine ⟨n, _, b, rfl, hn, rfl, hpass.trans (hk.passes_event rfl ha hpass'), hleaves.mono ?_ ?_⟩
    · exact fun a ha => List.mem_append_right _ ha
    · exact fun a ha => List.mem_append_right _ (List.mem_append_left _ ha)
  | elseBranch hs he _ ih =>
    intro parent ins outs ends ns hin hlaid
    obtain ⟨n, k, row, ts, es, outs₁, outs₂, ends₀, ends₁, ends₂, rfl, rfl, rfl, hhead, _, helse⟩ :=
      hlaid.of_branch hs
    obtain ⟨os, n', k', row', mid, hns, hout, hn, hos, hrow, hk⟩ := hhead.exists_last rfl
    obtain ⟨rfl, rfl⟩ := List.cons.inj hns
    cases hout
    obtain ⟨a, ha, hpass⟩ := hrow.passes_computes hos he hvars (fun _ => hin.expr hs) List.mem_cons_self
    obtain ⟨b, hpass', hleaves⟩ := ih (fun t ht => hin.child hs (List.mem_cons_of_mem _ ht)) helse
      (List.mem_singleton_self _)
    refine ⟨n, _, b, rfl, hn, rfl, hpass.trans (hk.passes_event rfl ha hpass'), hleaves.mono ?_ ?_⟩
    · exact fun a ha => List.mem_append_left _ ha
    · exact fun a ha => List.mem_append_right _ (List.mem_append_right _ ha)
  | loop hs _ ih =>
    intro parent ins outs ends ns hin hlaid
    obtain ⟨n, k, row, ts, back, ends₀, ends₁, rfl, rfl, rfl, hhead, hbody⟩ := hlaid.of_loop hs
    obtain ⟨os, n', k', row', mid, hns, hout, hn, hos, hrow, hk⟩ := hhead.exists_last rfl
    obtain ⟨rfl, rfl⟩ := List.cons.inj hns
    cases hout
    obtain ⟨b, hpass, hleaves⟩ := ih (hin.expr hs List.mem_cons_self) (hin.child hs List.mem_cons_self)
      hos hrow hk hbody List.mem_cons_self
    exact ⟨n, _, b, rfl, hn, rfl, hpass, hleaves.mono (fun a ha => ha)
      fun a ha => List.mem_append_right _ ha⟩
  | ret hs he =>
    intro parent ins outs ends ns hin hlaid
    obtain ⟨outs', ends', rfl, rfl, hhead⟩ := hlaid.of_ret hs
    obtain ⟨os, n, k, row, mid, rfl, rfl, hn, hos, hrow, hk⟩ := hhead.exists_last rfl
    obtain ⟨b, hb, hpass⟩ := hrow.passes_computes hos he hvars (fun _ => hin.expr hs) List.mem_cons_self
    exact ⟨n, _, _, rfl, hn, rfl, hpass.trans (hk.passes_event rfl hb (.refl g (k, none))),
      List.mem_append_right _ (List.mem_singleton_self _)⟩
  | nil =>
    intro parent ins outs ends ns a hin hlaid ha
    cases hlaid
    exact ⟨a, .refl g a, ha⟩
  | next _ _ ih₁ ih₂ =>
    intro parent ins outs ends ns a hin hlaid ha
    rw [List.forall_mem_cons] at hin
    cases hlaid with
    | cons hfirst hrest =>
      obtain ⟨mid, hpass, hmid⟩ := ih₁.enter hin.1 hfirst ha
      obtain ⟨b, hpass', hleaves⟩ := ih₂ hin.2 hrest hmid
      exact ⟨b, hpass.trans hpass', hleaves.mono (fun a ha => ha)
        fun a ha => List.mem_append_right _ ha⟩
  | stop _ ih =>
    intro parent ins outs ends ns a hin hlaid ha
    rw [List.forall_mem_cons] at hin
    cases hlaid with
    | cons hfirst hrest =>
      obtain ⟨b, hpass, hleaves⟩ := ih.enter hin.1 hfirst ha
      exact ⟨b, hpass, List.mem_append_left _ hleaves⟩
  | exit he =>
    intro os n k row ts mid back ends ends' a hine _ hos hrow hk _ ha
    obtain ⟨b, hb, hpass⟩ := hrow.passes_computes hos he hvars
      (fun e he => List.mem_singleton.1 he ▸ hine) ha
    exact ⟨_, hpass.trans (hk.passes_event rfl hb (.refl g (k, some .elseBranch))),
      List.mem_singleton_self _⟩
  | again he _ _ _ ih₁ ih₂ =>
    intro os n k row ts mid back ends ends' a hine hint hos hrow hk hbody ha
    obtain ⟨b, hb, hpass⟩ := hrow.passes_computes hos he hvars
      (fun e he => List.mem_singleton.1 he ▸ hine) ha
    -- The body leads back behind the loop's own node, and from there once more to the test.
    obtain ⟨d, hinner, hd⟩ := ih₁.enter hint hbody (List.mem_singleton_self _)
    obtain ⟨z, hlater, hleaves⟩ := ih₂ hine hint hos hrow hk hbody (List.mem_cons_of_mem _ hd)
    exact ⟨z, hpass.trans (hk.passes_event rfl hb (hinner.trans hlater)), hleaves⟩
  | leave he _ _ ih =>
    intro os n k row ts mid back ends ends' a hine hint hos hrow hk hbody ha
    obtain ⟨b, hb, hpass⟩ := hrow.passes_computes hos he hvars
      (fun e he => List.mem_singleton.1 he ▸ hine) ha
    obtain ⟨d, hinner, hd⟩ := ih.enter hint hbody (List.mem_singleton_self _)
    exact ⟨d, hpass.trans (hk.passes_event rfl hb hinner), hd⟩

/-- Every run of a body that finishes follows a path through its graph, from entry to end. What
    is seen on the path is what happens in the run, and no call on it throws. -/
theorem Graph.exists_route_of_run {p : Program} {body : StmtId} {g : Graph} {m m' : Machine}
    {c : Completion} (hg : ofBody p body = .ok (.ok g)) (hvars : p.AssignsVariables body)
    (hrun : (p.evalStmt body).run.run m = .ok (.ok c, m')) :
    ∃ events, Runs p (.stmt body) m.memory events c m'.memory ∧
      (∀ events' c' n, Runs p (.stmt body) m.memory events' c' n → events' = events) ∧
      ∃ first steps last, g.entry = some first ∧ g.exit = some last ∧ g.kind last = .ok .finish ∧
        g.Route first steps last ∧ steps.filterMap g.observe = events ∧
        ∀ step ∈ steps, g.Returns step := by
  obtain ⟨events, hevents⟩ := exists_runs hrun
  refine ⟨events, hevents, fun _ _ _ h => (hevents.unique h).1, ?_⟩
  obtain ⟨hentry, hexit⟩ := ofBody_ends hg
  obtain ⟨_, ns, last, outs, ends, horder, hlaid, hlast⟩ := ofBody_laidOut hg
  obtain ⟨n, kind, b, hhead, hn, hkind, ⟨steps, hlead, hseen, hreturns⟩, hleaves⟩ :=
    hevents.passes hvars .refl hlaid
  have hb : b ∈ g.arrivals last := by
    rw [hlast.arrivals]
    cases c with
    | normal => exact List.mem_append_left _ hleaves
    | returned value => exact List.mem_append_right _ hleaves
  refine ⟨n, (n, none) :: steps, last, ?_, ?_, ?_, hlead.route hb, ?_, ?_⟩
  · rw [hentry, horder, List.head?_append, hhead]
    rfl
  · rw [hexit, horder, List.getLast?_concat]
  · rw [Graph.kind, Arena.get_eq_ok_iff.2 hlast.node]
    rfl
  · have hsilent : g.observe (n, none) = none := by
      rw [hn.observe_eq, NodeKind.isEvent_of_isHead hkind]
      rfl
    rw [List.filterMap_cons_none hsilent]
    exact hseen
  · exact List.forall_mem_cons.2
      ⟨hn.returns fun e he => absurd he (NodeKind.ne_of_isHead hkind e), hreturns⟩

/-- Counts to three, calls a method with side effects and returns. -/
def sampleCount : Program where
  vars := ⟨#[{ name := "i", type := .int, kind := .ofMethod }]⟩
  methods := ⟨#[{ name := "tick", returns := .int, params := [], isPure := false, body := none }]⟩
  exprs := ⟨#[.int 1, .var ⟨0⟩, .int 3, .binary .lt ⟨1⟩ ⟨2⟩, .var ⟨0⟩, .var ⟨0⟩, .int 1,
    .binary .add ⟨5⟩ ⟨6⟩, .assign ⟨4⟩ ⟨7⟩, .var ⟨0⟩, .call ⟨0⟩ none [⟨9⟩], .var ⟨0⟩]⟩
  stmts := ⟨#[.declare ⟨0⟩ (some ⟨0⟩), .expr ⟨8⟩, .loop ⟨3⟩ ⟨1⟩, .expr ⟨10⟩, .ret (some ⟨11⟩),
    .block [⟨0⟩, ⟨2⟩, ⟨3⟩, ⟨4⟩]]⟩

theorem Graph.exists_route_of_run_count :
    ∃ g m', ofBody sampleCount ⟨5⟩ = .ok (.ok g) ∧ sampleCount.AssignsVariables ⟨5⟩ ∧
      (sampleCount.evalStmt ⟨5⟩).run.run { fuel := 100 } = .ok (.ok (.returned (some 3)), m') ∧
      ∃ first steps last, g.entry = some first ∧ g.exit = some last ∧ g.Route first steps last := by
  obtain ⟨g, hg⟩ : ∃ g, ofBody sampleCount ⟨5⟩ = .ok (.ok g) := ⟨_, rfl⟩
  have houtcome : ((sampleCount.evalStmt ⟨5⟩).run.run { fuel := 100 }).map Prod.fst =
      .ok (.ok (.returned (some 3))) := by decide +kernel
  obtain ⟨m', hrun⟩ : ∃ m', (sampleCount.evalStmt ⟨5⟩).run.run { fuel := 100 } =
      .ok (.ok (.returned (some 3)), m') := by
    cases h : (sampleCount.evalStmt ⟨5⟩).run.run { fuel := 100 } with
    | error fault =>
      rw [h] at houtcome
      cases houtcome
    | ok r =>
      obtain ⟨outcome, m'⟩ := r
      rw [h] at houtcome
      cases houtcome
      exact ⟨m', rfl⟩
  have hvars : sampleCount.AssignsVariables ⟨5⟩ := by
    intro e x _ hx t ht
    have htargets : ∀ x ∈ sampleCount.exprs.items.toList, ∀ t ∈ x.targets, t = ⟨4⟩ := by decide
    rw [htargets x (Array.mem_toList_iff.2 (Array.mem_of_getElem? hx)) t ht]
    exact ⟨⟨0⟩, rfl⟩
  obtain ⟨_, _, _, first, steps, last, hfirst, hlast, _, hroute, _⟩ :=
    exists_route_of_run hg hvars hrun
  exact ⟨g, m', hg, hvars, hrun, first, steps, last, hfirst, hlast, hroute⟩

end Dataflow
