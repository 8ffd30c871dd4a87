import Dataflow.Proofs.Layout

/-!
# Drafts follow the program

Lowering a statement makes a graph grow by a stretch of nodes that follows the
statement (`Laid`). The induction is on how deep statements nest; each case adds
nodes to a draft one after the other, so that all of it rests on what one node more
changes (`Draft.Sound.add`).

* `Draft.Extends`: a draft grew by some nodes, and the nodes before stayed as they were;
* `Program.lower_extends`: lowering a statement;
* `Graph.ofBody_laidOut`: the graph of a body is linked, and follows the body;
* `Draft.Keeps`, `Draft.Keeps.ofBody`: what one node and one edge more keep, the graph of a body
  has.
-/

namespace Dataflow

namespace Draft

@[simp] theorem nodes_joinTo (target : NodeId) (edges : List OpenEdge) (g : Graph) :
    (joinTo target edges g).nodes = g.nodes := by
  induction edges generalizing g with
  | nil => rfl
  | cons a edges ih => exact ih _

theorem nodes_add (d : Draft) (kind : NodeKind) (origin : Origin) :
    (d.add kind origin).graph.nodes = d.graph.nodes.push ⟨kind, origin, d.parent⟩ :=
  nodes_joinTo _ _ _

@[simp] theorem order_joinTo (target : NodeId) (edges : List OpenEdge) (g : Graph) :
    (joinTo target edges g).order = g.order := by
  induction edges generalizing g with
  | nil => rfl
  | cons a edges ih => exact ih _

@[simp] theorem entry_joinTo (target : NodeId) (edges : List OpenEdge) (g : Graph) :
    (joinTo target edges g).entry = g.entry := by
  induction edges generalizing g with
  | nil => rfl
  | cons a edges ih => exact ih _

/-- Open edges joined to a node are edges like all others, and enter that node in order. -/
theorem joinTo_linked {g : Graph} (hg : g.Linked) {target : NodeId} (ht : target ∈ g.order)
    {edges : List OpenEdge} (hedges : ∀ a ∈ edges, a.1 ∈ g.order) :
    (joinTo target edges g).Linked ∧ ∀ n, (joinTo target edges g).arrivals n =
      if target = n then g.arrivals n ++ edges else g.arrivals n := by
  induction edges generalizing g with
  | nil => exact ⟨hg, fun n => by simp [joinTo]⟩
  | cons a edges ih =>
    rw [List.forall_mem_cons] at hedges
    have hg' := hg.addEdge hedges.1 ht a.2
    obtain ⟨hlinked, harr⟩ := ih hg' ht hedges.2
    refine ⟨hlinked, fun n => (harr n).trans ?_⟩
    rw [hg.arrivals_addEdge]
    split
    · rw [List.append_assoc]
      rfl
    · rfl

/-- A draft whose graph is linked and entered at its first node, and whose open edges begin at
    nodes of it. -/
structure Sound (d : Draft) : Prop where
  linked : d.graph.Linked
  entry : d.graph.entry = d.graph.order.head?
  pending : ∀ a ∈ d.pending, a.1 ∈ d.graph.order
  toEnd : ∀ a ∈ d.toEnd, a.1 ∈ d.graph.order

/-- A draft grew by the nodes `ns`, and by the edges `ends` that will enter the end of the
    method; the nodes before stayed as they were. -/
structure Extends (d d' : Draft) (ns : List NodeId) (ends : List OpenEdge) : Prop where
  sound : d'.Sound
  order : d'.graph.order = d.graph.order ++ ns
  same : ∀ n ∈ d.graph.order, SameNode d.graph d'.graph n
  toEnd : d'.toEnd = d.toEnd ++ ends
  fresh : ns.map Handle.index = List.range' d.graph.nodes.size ns.length
  size : d'.graph.nodes.size = d.graph.nodes.size + ns.length

namespace Extends

variable {d d' d'' : Draft} {ns ms : List NodeId} {ends ends' : List OpenEdge}

theorem refl (hd : d.Sound) : d.Extends d [] [] where
  sound := hd
  order := (List.append_nil _).symm
  same _ _ := ⟨rfl, rfl⟩
  toEnd := (List.append_nil _).symm
  fresh := rfl
  size := rfl

theorem trans (h : d.Extends d' ns ends) (h' : d'.Extends d'' ms ends') :
    d.Extends d'' (ns ++ ms) (ends ++ ends') where
  sound := h'.sound
  order := by rw [h'.order, h.order, List.append_assoc]
  same n hn := by
    have hsame := h.same n hn
    have hsame' := h'.same n (h.order ▸ List.mem_append_left _ hn)
    exact ⟨hsame'.1.trans hsame.1, hsame'.2.trans hsame.2⟩
  toEnd := by rw [h'.toEnd, h.toEnd, List.append_assoc]
  fresh := by
    rw [List.map_append, h.fresh, h'.fresh, h.size, List.length_append, List.range'_append_1]
  size := by rw [h'.size, h.size, List.length_append, Nat.add_assoc]

/-- The nodes that were there before are the same. -/
theorem same_of_mem (h : d'.Extends d'' ms ends') (h₀ : d.Extends d' ns ends) :
    ∀ n ∈ ns, SameNode d'.graph d''.graph n :=
  fun n hn => h.same n (h₀.order ▸ List.mem_append_right _ hn)

end Extends

/-! ### Nodes and operations -/

namespace Sound

variable {d : Draft} (hd : d.Sound)
include hd

theorem withPending {pending : List OpenEdge} (h : ∀ a ∈ pending, a.1 ∈ d.graph.order) :
    ({ d with pending } : Draft).Sound :=
  ⟨hd.linked, hd.entry, h, hd.toEnd⟩

/-- One more node: it is entered by what was pending. -/
theorem add (kind : NodeKind) (origin : Origin) :
    d.Extends (d.add kind origin) [d.next] [] ∧
      Sits (d.add kind origin).graph d.next kind origin d.parent d.pending := by
  let grown := d.graph.addNode { kind, origin, parent := d.parent }
  have hnext : d.next ∈ grown.order := List.mem_append_right _ (List.mem_singleton_self _)
  have hgrown : ({ grown with entry := grown.entry.or (some d.next) } : Graph).Linked := by
    refine (hd.linked.addNode _).withEntry fun n hn => ?_
    rcases Option.or_eq_some_iff.1 hn with hn | ⟨_, hn⟩
    · exact List.mem_append_left _ (hd.linked.entry n hn)
    · exact Option.some.inj hn ▸ hnext
  have hpending : ∀ a ∈ d.pending, a.1 ∈ grown.order := fun a ha =>
    List.mem_append_left _ (hd.pending a ha)
  obtain ⟨hlinked, harr⟩ := joinTo_linked hgrown hnext hpending
  have hfresh : d.next ∉ d.graph.order := hd.linked.next_not_mem
  have hold : ∀ n ∈ d.graph.order, d.next ≠ n := fun n hn h => hfresh (h ▸ hn)
  have horder : (d.add kind origin).graph.order = d.graph.order ++ [d.next] :=
    order_joinTo _ _ _
  have hentry : (d.add kind origin).graph.entry = (d.add kind origin).graph.order.head? := by
    rw [horder, List.head?_append, ← hd.entry]
    exact entry_joinTo _ _ _
  refine ⟨⟨⟨hlinked, hentry, ?_, ?_⟩, horder, fun n hn => ⟨?_, ?_⟩, ?_, rfl, ?_⟩, ?_, ?_⟩
  · intro a ha
    rw [horder, List.mem_singleton.1 ha]
    exact List.mem_append_right _ (List.mem_singleton_self _)
  · intro a ha
    rw [horder]
    exact List.mem_append_left _ (hd.toEnd a ha)
  · refine (congrArg (Arena.get? · n) (nodes_joinTo _ _ _)).trans ?_
    exact Arena.get?_push_of_lt _ (hd.linked.allocated n hn)
  · refine (harr n).trans ?_
    rw [if_neg (hold n hn)]
    rfl
  · exact (List.append_nil _).symm
  · exact (congrArg Arena.size (nodes_joinTo _ _ _)).trans (Arena.size_push _ _)
  · exact (congrArg (Arena.get? · d.next) (nodes_joinTo _ _ _)).trans (Arena.get?_push_next _ _)
  · refine (harr d.next).trans ?_
    rw [if_pos rfl]
    have hnone : d.graph.arrivals d.next = [] :=
      hd.linked.arrivals_eq_nil_iff.2 (hd.linked.edges_of_not_mem hfresh).1
    exact (congrArg (· ++ d.pending) hnone).trans (List.nil_append _)

/-- The edge for the case that a call throws, and the one for the case that it does not. -/
theorem part (e x : ExprId) :
    d.Extends { d.add (.optionalThrow e) (.expr x) with
        toEnd := d.toEnd ++ [(d.next, some .throws)]
        pending := [(d.next, some .noThrow)] } [d.next] [(d.next, some .throws)] := by
  obtain ⟨h, _⟩ := hd.add (.optionalThrow e) (.expr x)
  have hnext : d.next ∈ (d.add (.optionalThrow e) (.expr x)).graph.order := by
    rw [h.order]
    exact List.mem_append_right _ (List.mem_singleton_self _)
  refine ⟨⟨h.sound.linked, h.sound.entry, ?_, ?_⟩, h.order, h.same, rfl, h.fresh, h.size⟩
  · intro a ha
    rw [List.mem_singleton.1 ha]
    exact hnext
  · intro a ha
    rcases List.mem_append.1 ha with ha | ha
    · exact h.sound.toEnd a ha
    · rw [List.mem_singleton.1 ha]
      exact hnext

/-- One more operation, and what follows it. -/
theorem addOperation (o : Operation) : ∃ ns ends,
    d.Extends (d.addOperation true o) ns ends ∧ (d.addOperation true o).parent = d.parent ∧
      ∀ {g : Graph} {os : List Operation} {ms : List NodeId} {outs ends' : List OpenEdge},
        (∀ n ∈ ns, SameNode (d.addOperation true o).graph g n) →
        Spelled g d.parent os (d.addOperation true o).pending ms outs ends' →
        Spelled g d.parent (o :: os) d.pending (ns ++ ms) outs (ends ++ ends') := by
  by_cases ho : ∃ e, o.kind = .call e
  · obtain ⟨e, ho⟩ := ho
    have hpart := hd.part e o.expr
    obtain ⟨_, hparting⟩ := hd.add (.optionalThrow e) (.expr o.expr)
    obtain ⟨hcall, hsits⟩ := hpart.sound.add o.kind (.expr o.expr)
    have hsits' := hparting.transport (hcall.same_of_mem hpart _ (List.mem_singleton_self _))
    simp only [Draft.addOperation, ho, if_true]
    rw [ho] at hcall hsits hsits'
    refine ⟨_, _, hpart.trans hcall, rfl, fun hsame hrest => ?_⟩
    exact .call ho (hsits'.transport (hsame _ (by simp))) (hsits.transport (hsame _ (by simp)))
      hrest
  · have hadd : d.addOperation true o = d.add o.kind (.expr o.expr) := by
      rw [Draft.addOperation]
      split
      · next e he => exact absurd ⟨e, he⟩ ho
      · rfl
    obtain ⟨h, hsits⟩ := hd.add o.kind (.expr o.expr)
    rw [hadd]
    exact ⟨_, _, h, rfl, fun hsame hrest => .op (hsits.transport (hsame _ (by simp))) hrest⟩

/-- More operations in a row. -/
theorem addOperations (os : List Operation) : ∃ ns ends,
    d.Extends (d.addOperations true os) ns ends ∧ (d.addOperations true os).parent = d.parent ∧
      Spelled (d.addOperations true os).graph d.parent os d.pending ns
        (d.addOperations true os).pending ends := by
  induction os generalizing d with
  | nil => exact ⟨[], [], .refl hd, rfl, .nil⟩
  | cons o os ih =>
    obtain ⟨ns, ends, hfirst, hparent, hspell⟩ := hd.addOperation o
    obtain ⟨ms, ends', hrest, hparent', hspelled⟩ := ih hfirst.sound
    rw [hparent] at hspelled
    exact ⟨ns ++ ms, ends ++ ends', hfirst.trans hrest, hparent'.trans hparent,
      hspell (hrest.same_of_mem hfirst) hspelled⟩

end Sound

theorem Extends.withParent {d d' : Draft} {ns : List NodeId} {ends : List OpenEdge}
    (h : d.Extends d' ns ends) (parent : Option NodeId) :
    d.Extends { d' with parent } ns ends :=
  ⟨⟨h.sound.linked, h.sound.entry, h.sound.pending, h.sound.toEnd⟩, h.order, h.same, h.toEnd,
    h.fresh, h.size⟩

/-- What is pending before plays no part in how a draft grows. -/
theorem Extends.ofPending {d d' : Draft} {pending : List OpenEdge} {ns : List NodeId}
    {ends : List OpenEdge} (h : ({ d with pending } : Draft).Extends d' ns ends) :
    d.Extends d' ns ends :=
  ⟨h.sound, h.order, h.same, h.toEnd, h.fresh, h.size⟩

theorem Extends.withPending {d d' : Draft} {pending : List OpenEdge} {ns : List NodeId}
    {ends : List OpenEdge} (h : d.Extends d' ns ends)
    (hpending : ∀ a ∈ pending, a.1 ∈ d'.graph.order) : d.Extends { d' with pending } ns ends :=
  ⟨h.sound.withPending hpending, h.order, h.same, h.toEnd, h.fresh, h.size⟩

/-- What is pending joined to one of the nodes that a draft grew by. -/
theorem Extends.joinBack {d d' : Draft} {ns : List NodeId} {ends : List OpenEdge}
    (h : d.Extends d' ns ends) {m : NodeId} (hm : m ∈ ns) :
    d.Extends { d' with graph := joinTo m d'.pending d'.graph } ns ends ∧
      (joinTo m d'.pending d'.graph).arrivals m = d'.graph.arrivals m ++ d'.pending ∧
      ∀ n, m ≠ n → SameNode d'.graph (joinTo m d'.pending d'.graph) n := by
  have hmem : m ∈ d'.graph.order := h.order ▸ List.mem_append_right _ hm
  obtain ⟨hlinked, harr⟩ := joinTo_linked h.sound.linked hmem h.sound.pending
  have hsame : ∀ n, m ≠ n → SameNode d'.graph (joinTo m d'.pending d'.graph) n := fun n hn =>
    ⟨by rw [nodes_joinTo], by rw [harr n, if_neg hn]⟩
  refine ⟨⟨⟨hlinked, ?_, ?_, ?_⟩, ?_, ?_, h.toEnd, h.fresh, ?_⟩, by rw [harr, if_pos rfl], hsame⟩
  · simpa using h.sound.entry
  · simpa using h.sound.pending
  · simpa using h.sound.toEnd
  · simpa using h.order
  · intro n hn
    -- The node is a new one, so it is none of those before.
    have hnodup := h.sound.linked.order_nodup
    rw [h.order] at hnodup
    have hne : m ≠ n := fun hmn => (List.nodup_append.1 hnodup).2.2 n hn m hm hmn.symm
    exact ⟨(hsame n hne).1.trans (h.same n hn).1, (hsame n hne).2.trans (h.same n hn).2⟩
  · simpa using h.size

/-! ### Statements -/

/-- A draft grew by the row of some expressions. -/
def Rows (p : Program) (es : List ExprId) (d d' : Draft) : Prop :=
  ∃ os ns ends, p.Spells es os ∧ d.Extends d' ns ends ∧ d'.parent = d.parent ∧
    Spelled d'.graph d.parent os d.pending ns d'.pending ends

/-- A draft grew by a part of a body. -/
def Lays (p : Program) (part : Part) (d d' : Draft) : Prop :=
  ∃ ns ends, d.Extends d' ns ends ∧ d'.parent = d.parent ∧
    Laid d'.graph p d.parent part d.pending ns d'.pending ends

namespace Sound

variable {d : Draft} (hd : d.Sound) {p : Program}
include hd

theorem rows_nil : Rows p [] d d := ⟨[], [], [], rfl, .refl hd, rfl, .nil⟩

theorem rows_one {e : ExprId} {d' : Draft}
    (h : p.lowerExpr d e = (.ok (.ok d') : Run (Except Error Draft))) : Rows p [e] d d' := by
  obtain ⟨os, hos, h⟩ := Lowered.bind_eq_ok.1 h
  cases h
  obtain ⟨ns, ends, hext, hparent, hspelled⟩ := hd.addOperations os
  exact ⟨os, ns, ends, spelledBy_one.2 hos, hext, hparent, hspelled⟩

theorem enter (kind : NodeKind) (s : StmtId) : d.Extends (d.enter kind s) [d.next] [] ∧
    Sits (d.enter kind s).graph d.next kind (.stmt s) d.parent d.pending :=
  ⟨(hd.add kind (.stmt s)).1.withParent _, (hd.add kind (.stmt s)).2⟩

/-- One way out of a new node. -/
theorem fork (kind : NodeKind) (origin : Origin) (label : Option Label) :
    ({ d.add kind origin with pending := [(d.next, label)] } : Draft).Sound := by
  refine (hd.add kind origin).1.sound.withPending fun a ha => ?_
  rw [(hd.add kind origin).1.order, List.mem_singleton.1 ha]
  exact List.mem_append_right _ (List.mem_singleton_self _)

/-- A statement that does nothing last. -/
theorem head_plain {s : StmtId} {st : Stmt} {d' : Draft} (hst : st.lastKind = none)
    (hrow : Rows p st.exprs (d.enter .statement s) d') :
    ∃ ns ends, d.Extends d' ns ends ∧
      Headed d'.graph p d.parent s st [] d.pending ns d'.pending ends := by
  obtain ⟨hent, hsits⟩ := hd.enter .statement s
  obtain ⟨os, ns, ends, hos, hext, _, hspelled⟩ := hrow
  have hn := hsits.transport (hext.same_of_mem hent _ (List.mem_singleton_self _))
  exact ⟨_, _, hent.trans hext, .plain hst hn hos hspelled⟩

/-- A statement that does something last. -/
theorem head_last {s : StmtId} (st : Stmt) {d' : Draft} {kind : NodeKind}
    (hst : st.lastKind = some kind) (hrow : Rows p st.exprs (d.enter .statement s) d') :
    ∃ ns ends, d.Extends (d'.add kind (.stmt s)) (d.next :: ns) ends ∧ ns ≠ [] ∧
      (d'.add kind (.stmt s)).parent = some d.next ∧
      Headed (d'.add kind (.stmt s)).graph p d.parent s st [] d.pending (d.next :: ns)
        [(d'.next, none)] ends := by
  obtain ⟨hent, hsits⟩ := hd.enter .statement s
  obtain ⟨os, ns, ends, hos, hext, hparent, hspelled⟩ := hrow
  obtain ⟨hadd, hlast⟩ := hext.sound.add kind (.stmt s)
  have hn := hsits.transport (hext.same_of_mem hent _ (List.mem_singleton_self _))
  have hall := hent.trans hext
  have hsame := hadd.same_of_mem hall
  refine ⟨ns ++ [d'.next], _, hall.trans hadd, by simp, hparent, ?_⟩
  rw [hparent] at hlast
  rw [List.append_nil]
  exact .last hst (hn.transport (hsame _ (by simp))) hos
    (hspelled.transport fun n hn => hsame n (by simp [hn])) hlast

end Sound

section Statements

variable {p : Program} {d d' : Draft} {s : StmtId}

theorem Rows.sound {es : List ExprId} (h : Rows p es d d') : d'.Sound := by
  obtain ⟨_, _, _, _, hext, _⟩ := h
  exact hext.sound

theorem Lays.sound {part : Part} (h : Lays p part d d') : d'.Sound := by
  obtain ⟨_, _, hext, _⟩ := h
  exact hext.sound

theorem Lays.mem_order {part : Part} (h : Lays p part d d') {edges : List OpenEdge}
    (hedges : ∀ a ∈ edges, a.1 ∈ d.graph.order) : ∀ a ∈ edges, a.1 ∈ d'.graph.order := by
  obtain ⟨_, _, hext, _⟩ := h
  intro a ha
  rw [hext.order]
  exact List.mem_append_left _ (hedges a ha)

theorem lays_nil (hd : d.Sound) : Lays p (.seq []) d d := ⟨[], [], .refl hd, rfl, .nil⟩

theorem Lays.one (h : Lays p (.stmt s) d d') : Lays p (.seq [s]) d d' := by
  obtain ⟨ns, ends, hext, hparent, hlaid⟩ := h
  refine ⟨ns, ends, hext, hparent, ?_⟩
  rw [← List.append_nil ns, ← List.append_nil ends]
  exact .cons hlaid .nil

/-- Statements one after the other. -/
theorem lays_seq {self : StmtId → Draft → Lowered Draft}
    (hself : ∀ s d d', d.Sound → self s d = (.ok (.ok d') : Run (Except Error Draft)) →
      Lays p (.stmt s) d d') (hd : d.Sound) {ss : List StmtId}
    (h : ss.foldlM (fun d child => self child d) d = (.ok (.ok d') : Run (Except Error Draft))) :
    Lays p (.seq ss) d d' := by
  induction ss generalizing d with
  | nil =>
    cases h
    exact lays_nil hd
  | cons s ss ih =>
    rw [List.foldlM_cons] at h
    obtain ⟨d₁, h₁, h⟩ := Lowered.bind_eq_ok.1 h
    obtain ⟨ns, ends, hext, hparent, hlaid⟩ := hself s d d₁ hd h₁
    obtain ⟨ms, ends', hext', hparent', hlaid'⟩ := ih hext.sound h
    rw [hparent] at hlaid'
    exact ⟨_, _, hext.trans hext', hparent'.trans hparent,
      .cons (hlaid.transport (hext'.same_of_mem hext)) hlaid'⟩

theorem lays_block {ss : List StmtId} (hd : d.Sound) (hs : p.stmts.get? s = some (.block ss))
    (h : Lays p (.seq ss) (d.enter .block s) d') :
    Lays p (.stmt s) d { d' with parent := d.parent } := by
  obtain ⟨hent, hsits⟩ := hd.enter .block s
  obtain ⟨ns, ends, hext, _, hlaid⟩ := h
  have hn := hsits.transport (hext.same_of_mem hent _ (List.mem_singleton_self _))
  exact ⟨_, _, (hent.trans hext).withParent _, rfl, .block hs hn hlaid⟩

theorem lays_straight {st : Stmt} (hd : d.Sound) (hs : p.stmts.get? s = some st)
    (hst : st.isStraight = true) (hnone : st.lastKind = none)
    (hrow : Rows p st.exprs (d.enter .statement s) d') :
    Lays p (.stmt s) d { d' with parent := d.parent } := by
  obtain ⟨ns, ends, hext, hhead⟩ := hd.head_plain hnone hrow
  exact ⟨ns, ends, hext.withParent _, rfl, .straight hs hst hhead⟩

theorem lays_straight_last {st : Stmt} {kind : NodeKind} (hd : d.Sound)
    (hs : p.stmts.get? s = some st) (hst : st.isStraight = true) (hkind : st.lastKind = some kind)
    (hrow : Rows p st.exprs (d.enter .statement s) d') :
    Lays p (.stmt s) d { d'.add kind (.stmt s) with parent := d.parent } := by
  obtain ⟨ns, ends, hext, _, _, hhead⟩ := hd.head_last st hkind hrow
  exact ⟨_, ends, hext.withParent _, rfl, .straight hs hst hhead⟩

theorem lays_ret {value : Option ExprId} (hd : d.Sound) (hs : p.stmts.get? s = some (.ret value))
    (hrow : Rows p (Stmt.ret value).exprs (d.enter .statement s) d') :
    Lays p (.stmt s) d { d'.add .goto (.stmt s) with
      toEnd := d'.toEnd ++ [(d'.next, none)], pending := [], parent := d.parent } := by
  obtain ⟨ns, ends, hext, _, _, hhead⟩ := hd.head_last (.ret value) rfl hrow
  refine ⟨_, _, ⟨⟨hext.sound.linked, hext.sound.entry, ?_, ?_⟩, hext.order, hext.same, ?_,
    hext.fresh, hext.size⟩, rfl, .ret hs hhead⟩
  · exact fun a ha => absurd ha List.not_mem_nil
  · intro a ha
    rcases List.mem_append.1 ha with ha | ha
    · exact hext.sound.toEnd a ha
    · exact hext.sound.pending a ha
  · rw [← List.append_assoc, ← hext.toEnd]
    rfl

/-- The two ways of a branch, laid out one after the other. -/
theorem lays_branch {c : ExprId} {t : StmtId} {e : Option StmtId} {d₁ d₂ : Draft} (hd : d.Sound)
    (hs : p.stmts.get? s = some (.branch c t e))
    (hrow : Rows p [c] (d.enter .statement s) d')
    (hthen : Lays p (.stmt t)
      { d'.add (.conditional c) (.stmt s) with pending := [(d'.next, some .thenBranch)] } d₁)
    (helse : Lays p (.seq e.toList) { d₁ with pending := [(d'.next, some .elseBranch)] } d₂) :
    Lays p (.stmt s) d { d₂ with pending := d₂.pending ++ d₁.pending, parent := d.parent } := by
  obtain ⟨ns, ends, hext, _, hparent, hhead⟩ := hd.head_last (.branch c t e) rfl hrow
  obtain ⟨ts, ends₁, hext₁, hparent₁, hlaid₁⟩ := hthen
  obtain ⟨es, ends₂, hext₂, hparent₂, hlaid₂⟩ := helse
  replace hext₁ := hext₁.ofPending
  replace hext₂ := hext₂.ofPending
  have hlater := hext₁.trans hext₂
  have hall := hext.trans hlater
  have hpending : ∀ a ∈ d₂.pending ++ d₁.pending, a.1 ∈ d₂.graph.order := by
    intro a ha
    rcases List.mem_append.1 ha with ha | ha
    · exact hext₂.sound.pending a ha
    · rw [hext₂.order]
      exact List.mem_append_left _ (hext₁.sound.pending a ha)
  refine ⟨_, _, (hall.withPending hpending).withParent _, rfl, ?_⟩
  refine .branch hs (hhead.transport (hlater.same_of_mem hext)) ?_ ?_
  · rw [← hparent]
    exact hlaid₁.transport (hext₂.same_of_mem hext₁)
  · rw [← hparent]
    exact hparent₁ ▸ hlaid₂

/-- The body of a loop, from whose end edges lead back behind the statement's own node. -/
theorem lays_loop {c : ExprId} {b : StmtId} {d₁ : Draft} (hd : d.Sound)
    (hs : p.stmts.get? s = some (.loop c b))
    (hrow : Rows p [c] (d.enter .statement s) d')
    (hbody : Lays p (.stmt b)
      { d'.add (.conditional c) (.stmt s) with pending := [(d'.next, some .thenBranch)] } d₁) :
    Lays p (.stmt s) d { d₁ with
      graph := joinTo (d.enter .statement s).next d₁.pending d₁.graph
      pending := [(d'.next, some .elseBranch)], parent := d.parent } := by
  obtain ⟨ns, ends, hext, hns, hparent, hhead⟩ := hd.head_last (.loop c b) rfl hrow
  obtain ⟨bs, ends₁, hext₁, _, hlaid⟩ := hbody
  replace hext₁ := hext₁.ofPending
  have hall := hext.trans hext₁
  obtain ⟨m, rest, rfl⟩ := List.exists_cons_of_ne_nil hns
  -- The node after the statement's own one is where the edges lead back to.
  have hm : (d.enter .statement s).next = m := by
    have hfresh := hext.fresh
    simp only [List.map_cons, List.length_cons, List.range'_succ] at hfresh
    have hindex : m.index = d.graph.nodes.size + 1 := (List.cons.inj (List.cons.inj hfresh).2).1
    exact Handle.index_inj.1 ((hd.enter .statement s).1.size.trans hindex.symm)
  have hmem : m ∈ (d.next :: m :: rest) ++ bs := by simp
  obtain ⟨hback, harr, hsame⟩ := hall.joinBack hmem
  have hnodup : (d.next :: m :: rest ++ bs).Nodup := by
    have hnodup := hext₁.sound.linked.order_nodup
    rw [hall.order] at hnodup
    exact (List.nodup_append.1 hnodup).2.1
  simp only [List.cons_append, List.nodup_cons, List.mem_cons, List.mem_append, not_or] at hnodup
  obtain ⟨⟨hn, _⟩, ⟨hrest, hbs⟩, _⟩ := hnodup
  have hhead' := hhead.transport (hext₁.same_of_mem hext)
  have hpending : ∀ a ∈ [(d'.next, some Label.elseBranch)], a.1 ∈ d₁.graph.order := by
    intro a ha
    rw [List.mem_singleton.1 ha, hext₁.order]
    exact List.mem_append_left _ (hext.sound.pending (d'.next, none) (List.mem_singleton_self _))
  rw [hm]
  refine ⟨_, _, (hback.withPending (by simpa using hpending)).withParent _, rfl, ?_⟩
  have hloop : Headed (joinTo m d₁.pending d₁.graph) p d.parent s (.loop c b) d₁.pending d.pending
      (d.next :: m :: rest) [(d'.next, none)] ends := by
    refine hhead'.withBack (by simp [Stmt.lastKind]) (hsame _ (Ne.symm hn)) ?_ ?_ ?_
    · rw [nodes_joinTo]
    · rw [harr, hhead'.arrivals_second]
      rfl
    · exact fun n hmem => hsame n fun h => hrest (h ▸ hmem)
  refine .loop hs hloop ?_
  rw [← hparent]
  exact hlaid.transport fun n hmem => hsame n fun h => hbs (h ▸ hmem)

end Statements

end Draft

open Draft in
/-- One level of lowering follows the statement if the levels below do. -/
theorem Program.lowerStep_lays {p : Program} {self : StmtId → Draft → Lowered Draft}
    (hself : ∀ s d d', d.Sound → self s d = (.ok (.ok d') : Run (Except Error Draft)) →
      Lays p (.stmt s) d d') {s : StmtId} {d d' : Draft} (hd : d.Sound)
    (h : p.lowerStep self s d = (.ok (.ok d') : Run (Except Error Draft))) :
    Lays p (.stmt s) d d' := by
  rw [lowerStep] at h
  obtain ⟨st, hs, h⟩ := Lowered.bind_eq_ok.1 h
  rw [Lowered.get_eq_ok] at hs
  have hent := (hd.enter .statement s).1.sound
  cases st with
  | block ss =>
    obtain ⟨d₁, h₁, h⟩ := Lowered.bind_eq_ok.1 h
    cases h
    exact lays_block hd hs (lays_seq hself (hd.enter .block s).1.sound h₁)
  | declare v init =>
    cases init with
    | none =>
      cases h
      exact lays_straight hd hs rfl rfl hent.rows_nil
    | some e =>
      obtain ⟨d₁, h₁, h⟩ := Lowered.bind_eq_ok.1 h
      cases h
      exact lays_straight_last hd hs rfl rfl (hent.rows_one h₁)
  | expr e =>
    obtain ⟨d₁, h₁, h⟩ := Lowered.bind_eq_ok.1 h
    cases h
    exact lays_straight hd hs rfl rfl (hent.rows_one h₁)
  | branch c t e =>
    obtain ⟨d₁, h₁, h⟩ := Lowered.bind_eq_ok.1 h
    obtain ⟨d₂, h₂, h⟩ := Lowered.bind_eq_ok.1 h
    have hrow := hent.rows_one h₁
    have hthen := hself t _ d₂ (hrow.sound.fork (.conditional c) (.stmt s) _) h₂
    have hfork := hthen.sound.withPending (hthen.mem_order
      (hrow.sound.fork (.conditional c) (.stmt s) (some .elseBranch)).pending)
    cases e with
    | none =>
      cases h
      exact lays_branch hd hs hrow hthen (lays_nil hfork)
    | some e =>
      obtain ⟨d₃, h₃, h⟩ := Lowered.bind_eq_ok.1 h
      cases h
      exact lays_branch hd hs hrow hthen (hself e _ d₃ hfork h₃).one
  | loop c b =>
    obtain ⟨d₁, h₁, h⟩ := Lowered.bind_eq_ok.1 h
    obtain ⟨d₂, h₂, h⟩ := Lowered.bind_eq_ok.1 h
    cases h
    have hrow := hent.rows_one h₁
    exact lays_loop hd hs hrow (hself b _ d₂ (hrow.sound.fork _ _ _) h₂)
  | ret value =>
    cases value with
    | none =>
      cases h
      exact lays_ret hd hs hent.rows_nil
    | some e =>
      obtain ⟨d₁, h₁, h⟩ := Lowered.bind_eq_ok.1 h
      cases h
      exact lays_ret hd hs (hent.rows_one h₁)

open Draft in
/-- Lowering a statement follows it. -/
theorem Program.lower_lays {p : Program} {s : StmtId} {d d' : Draft} (hd : d.Sound)
    (h : p.lower s d = (.ok (.ok d') : Run (Except Error Draft))) : Lays p (.stmt s) d d' := by
  rw [lower] at h
  generalize p.stmtDepth = depth at h
  induction depth generalizing s d d' with
  | zero => cases h
  | succ depth ih =>
    rw [unroll_succ] at h
    exact lowerStep_lays (fun s d d' hd h => ih hd h) hd h

theorem Draft.sound_empty : ({} : Draft).Sound where
  linked := Graph.linked_empty
  entry := rfl
  pending := by simp
  toEnd := by simp

/-- The graph of a body is linked and follows the body. -/
theorem Graph.ofBody_laidOut {p : Program} {body : StmtId} {g : Graph}
    (h : ofBody p body = .ok (.ok g)) : g.Linked ∧ g.LaidOut p body := by
  obtain ⟨d, hd, h⟩ := Lowered.bind_eq_ok.1 h
  cases h
  obtain ⟨ns, ends, hext, hparent, hlaid⟩ := Program.lower_lays Draft.sound_empty hd
  obtain ⟨hadd, hlast⟩ := hext.sound.add .finish .none
  have hall := hext.trans hadd
  -- The edges for the end of the method are joined to its last node, which is a new one.
  obtain ⟨hlinked, harr⟩ := Draft.joinTo_linked hadd.sound.linked
    (hadd.sound.pending (d.next, none) (List.mem_singleton_self _)) hadd.sound.toEnd
  have hends : (d.add .finish .none).toEnd = ends := by
    rw [hall.toEnd, List.append_nil]
    rfl
  have horder : (Draft.joinTo d.next (d.add .finish .none).toEnd
      (d.add .finish .none).graph).order = ns ++ [d.next] := by
    rw [Draft.order_joinTo, hall.order]
    rfl
  have hne : ∀ n ∈ ns, d.next ≠ n := by
    intro n hn hnext
    have hnodup := hlinked.order_nodup
    rw [horder] at hnodup
    exact (List.nodup_append.1 hnodup).2.2 n hn d.next (List.mem_singleton_self _) hnext.symm
  refine ⟨hlinked.withExit fun n hn => ?_, ns, d.next, d.pending, ends, horder, ?_, ?_, ?_⟩
  · rw [horder, ← Option.some.inj hn]
    exact List.mem_append_right _ (List.mem_singleton_self _)
  · refine hlaid.transport fun n hn => ?_
    have hsame := hadd.same n (hext.order ▸ List.mem_append_right _ hn)
    exact ⟨(congrArg (Arena.get? · n) (Draft.nodes_joinTo _ _ _)).trans hsame.1,
      ((harr n).trans (if_neg (hne n hn))).trans hsame.2⟩
  · refine (congrArg (Arena.get? · d.next) (Draft.nodes_joinTo _ _ _)).trans ?_
    exact hlast.node.trans (by rw [hparent])
  · exact ((harr d.next).trans (if_pos rfl)).trans (by rw [hlast.arrivals, hends])

/-- The graph of a body is entered at its first node and left at its last one. -/
theorem Graph.ofBody_ends {p : Program} {body : StmtId} {g : Graph}
    (h : ofBody p body = .ok (.ok g)) :
    g.entry = g.order.head? ∧ g.exit = g.order.getLast? := by
  obtain ⟨d, hd, h⟩ := Lowered.bind_eq_ok.1 h
  cases h
  have hadd := ((Program.lower_lays Draft.sound_empty hd).sound.add .finish .none).1
  have horder : (Draft.joinTo d.next (d.add .finish .none).toEnd (d.add .finish .none).graph).order =
      d.graph.order ++ [d.next] := (Draft.order_joinTo _ _ _).trans hadd.order
  constructor
  · exact (Draft.entry_joinTo _ _ _).trans
      (hadd.sound.entry.trans (congrArg List.head? (Draft.order_joinTo _ _ _).symm))
  · exact (congrArg List.getLast? horder).trans List.getLast?_concat |>.symm

/-! ### What lowering keeps -/

namespace Draft

/-- What is kept where a graph gets one more node, unless the node stands for an expression alone,
    or one more edge, or other ends. -/
structure Keeps (P : Graph → Prop) : Prop where
  node : ∀ {g : Graph} (node : Node), node.kind ≠ .nop → P g → P (g.addNode node)
  edge : ∀ {g : Graph} (source target : NodeId) (label : Option Label), P g →
    P (g.addEdge source target label)
  ends : ∀ {g : Graph} (entry exit : Option NodeId), P g → P { g with entry, exit }

namespace Keeps

variable {P : Graph → Prop} (hP : Keeps P) {p : Program} {d d' : Draft}
include hP

theorem joinTo {g : Graph} (h : P g) (target : NodeId) (edges : List OpenEdge) :
    P (Draft.joinTo target edges g) :=
  List.foldlRecOn edges _ h fun _ hg _ _ => hP.edge _ _ _ hg

theorem add (h : P d.graph) {kind : NodeKind} (hkind : kind ≠ .nop) (origin : Origin) :
    P (d.add kind origin).graph :=
  hP.joinTo (hP.ends _ _ (hP.node _ hkind h)) _ _

theorem addOperations {os : List Operation} (h : P d.graph)
    (hos : ∀ o ∈ os, o.kind.isOperation = true) : P (d.addOperations true os).graph := by
  induction os generalizing d with
  | nil => exact h
  | cons o os ih =>
    rw [List.forall_mem_cons] at hos
    refine ih ?_ hos.2
    obtain ⟨kind, e⟩ := o
    have hkind : kind ≠ .nop := fun hnop => by simp [hnop, NodeKind.isOperation] at hos
    cases kind with
    | call c =>
      have hparting : P (d.add (.optionalThrow c) (.expr e)).graph := hP.add h (by simp) _
      exact hP.add (d := { d.add (.optionalThrow c) (.expr e) with
        toEnd := d.toEnd ++ [(d.next, some .throws)]
        pending := [(d.next, some .noThrow)] }) hparting hkind _
    | _ => exact hP.add h hkind _

theorem lowerExpr {e : ExprId}
    (hd' : p.lowerExpr d e = (.ok (.ok d') : Run (Except Error Draft))) (h : P d.graph) :
    P d'.graph := by
  obtain ⟨os, hos, hd'⟩ := Lowered.bind_eq_ok.1 hd'
  cases hd'
  obtain ⟨_, hem⟩ := Emits.exists_of_spells (spelledBy_one.2 hos)
  exact hP.addOperations h hem.isOperation

/-- One level of lowering keeps what the levels below keep. -/
theorem lowerStep {self : StmtId → Draft → Lowered Draft}
    (hself : ∀ {s d d'}, self s d = (.ok (.ok d') : Run (Except Error Draft)) →
      P d.graph → P d'.graph) {s : StmtId}
    (hd' : p.lowerStep self s d = (.ok (.ok d') : Run (Except Error Draft)))
    (h : P d.graph) : P d'.graph := by
  have hseq : ∀ {ss : List StmtId} {d d' : Draft},
      ss.foldlM (fun d child => self child d) d = (.ok (.ok d') : Run (Except Error Draft)) →
      P d.graph → P d'.graph := by
    intro ss d d' hd' h
    induction ss generalizing d with
    | nil =>
      cases hd'
      exact h
    | cons s ss ih =>
      rw [List.foldlM_cons] at hd'
      obtain ⟨d₁, h₁, hd'⟩ := Lowered.bind_eq_ok.1 hd'
      exact ih hd' (hself h₁ h)
  have hent : P (d.enter .statement s).graph := hP.add h (by simp) _
  rw [Program.lowerStep] at hd'
  obtain ⟨st, _, hd'⟩ := Lowered.bind_eq_ok.1 hd'
  cases st with
  | block ss =>
    obtain ⟨d₁, h₁, hd'⟩ := Lowered.bind_eq_ok.1 hd'
    cases hd'
    have hblock : P (d.enter .block s).graph := hP.add h (by simp) _
    have hchildren := hseq h₁ hblock
    exact hchildren
  | declare v init =>
    cases init with
    | none =>
      cases hd'
      exact hent
    | some e =>
      obtain ⟨d₁, h₁, hd'⟩ := Lowered.bind_eq_ok.1 hd'
      cases hd'
      exact hP.add (hP.lowerExpr h₁ hent) (by simp) _
  | expr e =>
    obtain ⟨d₁, h₁, hd'⟩ := Lowered.bind_eq_ok.1 hd'
    cases hd'
    have hrow := hP.lowerExpr h₁ hent
    exact hrow
  | branch c t e =>
    obtain ⟨d₁, h₁, hd'⟩ := Lowered.bind_eq_ok.1 hd'
    obtain ⟨d₂, h₂, hd'⟩ := Lowered.bind_eq_ok.1 hd'
    have hthen := hself h₂ (hP.add (hP.lowerExpr h₁ hent) (by simp) _)
    cases e with
    | none =>
      cases hd'
      exact hthen
    | some e =>
      obtain ⟨d₃, h₃, hd'⟩ := Lowered.bind_eq_ok.1 hd'
      cases hd'
      have helse := hself h₃ hthen
      exact helse
  | loop c b =>
    obtain ⟨d₁, h₁, hd'⟩ := Lowered.bind_eq_ok.1 hd'
    obtain ⟨d₂, h₂, hd'⟩ := Lowered.bind_eq_ok.1 hd'
    cases hd'
    have hbody := hself h₂ (hP.add (hP.lowerExpr h₁ hent) (by simp) _)
    exact hP.joinTo hbody _ _
  | ret value =>
    cases value with
    | none =>
      cases hd'
      exact hP.add hent (by simp) _
    | some e =>
      obtain ⟨d₁, h₁, hd'⟩ := Lowered.bind_eq_ok.1 hd'
      cases hd'
      exact hP.add (hP.lowerExpr h₁ hent) (by simp) _

theorem lower {s : StmtId} (hd' : p.lower s d = (.ok (.ok d') : Run (Except Error Draft)))
    (h : P d.graph) : P d'.graph := by
  rw [Program.lower] at hd'
  generalize p.stmtDepth = depth at hd'
  induction depth generalizing s d d' with
  | zero => cases hd'
  | succ depth ih =>
    rw [unroll_succ] at hd'
    exact hP.lowerStep (fun hd' h => ih h hd') hd' h

/-- The graph of a body has what the empty graph has and growing keeps. -/
theorem ofBody {body : StmtId} {g : Graph} (hg : Graph.ofBody p body = .ok (.ok g))
    (h : P {}) : P g := by
  obtain ⟨d, hd, hg⟩ := Lowered.bind_eq_ok.1 hg
  cases hg
  exact hP.ends _ _ (hP.joinTo (hP.add (hP.lower hd h) (by simp) _) _ _)

end Keeps

end Draft

end Dataflow
