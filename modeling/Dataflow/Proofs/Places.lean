import Dataflow.Proofs.Relayout

/-!
# What nodes stand for

In a graph that follows a body, every node that reads or writes a variable is part of the
row of one statement, and it is the only node for what it stands for.

* `Graph.LaidOut.exists_read`: the statement that a read is part of;
* `Graph.LaidOut.readsAlone`, `Graph.LaidOut.write_unique`: no two nodes stand for one read, and
  no two write one value;
* `Graph.LaidOut.exists_value_row`: the operations of a value stand right before the node that
  writes it.
-/

namespace Dataflow

variable {g : Graph} {p : Program} {ls : List StmtId} {ns ms : List NodeId} {n : NodeId}
  {parent : Option NodeId} {ins outs ends : List OpenEdge}

/-! ### The row that a node is part of -/

/-- The node `n` is part of the row of one of the statements `ls`, a stretch of `ns`. -/
def InHead (g : Graph) (p : Program) (ls : List StmtId) (ns : List NodeId) (n : NodeId) : Prop :=
  ∃ s st before row after parent back ins outs ends, s ∈ ls ∧ p.stmts.get? s = some st ∧
    Headed g p parent s st back ins row outs ends ∧ ns = before ++ (row ++ after) ∧ n ∈ row

theorem InHead.of_headed {s : StmtId} {st : Stmt} {back : List OpenEdge} (hs : s ∈ ls)
    (hst : p.stmts.get? s = some st) (h : Headed g p parent s st back ins ns outs ends)
    (hn : n ∈ ns) : InHead g p ls ns n :=
  ⟨s, st, [], ns, [], parent, back, ins, outs, ends, hs, hst, h, (List.append_nil ns).symm, hn⟩

theorem InHead.append_left (h : InHead g p ls ns n) (ms : List NodeId) :
    InHead g p ls (ms ++ ns) n := by
  obtain ⟨s, st, before, row, after, parent, back, ins, outs, ends, hs, hst, hh, rfl, hn⟩ := h
  exact ⟨s, st, ms ++ before, row, after, parent, back, ins, outs, ends, hs, hst, hh,
    (List.append_assoc ..).symm, hn⟩

theorem InHead.append_right (h : InHead g p ls ns n) (ms : List NodeId) :
    InHead g p ls (ns ++ ms) n := by
  obtain ⟨s, st, before, row, after, parent, back, ins, outs, ends, hs, hst, hh, rfl, hn⟩ := h
  exact ⟨s, st, before, row, after ++ ms, parent, back, ins, outs, ends, hs, hst, hh,
    by rw [List.append_assoc, List.append_assoc], hn⟩

/-- Every node of statements is the node of a block or part of the row of a statement. -/
theorem Laid.inHead {part : Part} (h : Laid g p parent part ins ns outs ends)
    (hpart : ∀ s ∈ part.stmts, s ∈ ls)
    (hinside : ∀ s ∈ ls, ∀ st, p.stmts.get? s = some st → ∀ t ∈ st.children, t ∈ ls) (hn : n ∈ ns) :
    (∃ node, g.nodes.get? n = some node ∧ node.kind = .block) ∨ InHead g p ls ns n := by
  induction h with
  | @block s ss parent m ns ins outs ends hst hm _ ih =>
    rcases List.mem_cons.1 hn with rfl | hn
    · exact .inl ⟨_, hm.node, rfl⟩
    · exact (ih (hinside s (hpart s (List.mem_singleton_self s)) _ hst) hn).imp_right
        (·.append_left [m])
  | @straight s st parent ns ins outs ends hst _ hh | @ret s st parent ns ins outs ends hst hh =>
    exact .inr (.of_headed (hpart s (List.mem_singleton_self s)) hst hh hn)
  | @branch s t c els parent m k ns ts es ins outs₁ outs₂ ends ends₁ ends₂ hst hh _ _ ih₁ ih₂ =>
    have hs := hpart s (List.mem_singleton_self s)
    have hchildren := hinside s hs _ hst
    rw [← List.cons_append] at hn ⊢
    rcases List.mem_append.1 hn with hn | hn
    · exact .inr ((InHead.of_headed hs hst hh hn).append_right _)
    · rcases List.mem_append.1 hn with hn | hn
      · refine (ih₁ (fun u hu => hchildren u ?_) hn).imp_right fun h =>
          (h.append_right es).append_left _
        rw [List.mem_singleton.1 hu]
        exact List.mem_cons_self
      · exact (ih₂ (fun u hu => hchildren u (List.mem_cons_of_mem _ hu)) hn).imp_right fun h =>
          (h.append_left ts).append_left _
  | @loop s b c parent m k ns bs ins back ends ends₁ hst hh _ ih =>
    have hs := hpart s (List.mem_singleton_self s)
    rw [← List.cons_append] at hn ⊢
    rcases List.mem_append.1 hn with hn | hn
    · exact .inr ((InHead.of_headed hs hst hh hn).append_right _)
    · exact (ih (hinside s hs _ hst) hn).imp_right (·.append_left _)
  | nil => cases hn
  | @cons s ss parent ns ms ins mid outs ends₁ ends₂ _ _ ih₁ ih₂ =>
    rw [Part.stmts, List.forall_mem_cons] at hpart
    rcases List.mem_append.1 hn with hn | hn
    · exact (ih₁ (fun t ht => List.mem_singleton.1 ht ▸ hpart.1) hn).imp_right (·.append_right ms)
    · exact (ih₂ hpart.2 hn).imp_right (·.append_left ns)

/-- Every node of a graph that follows a body is the node of a block, the end of the method or
    part of the row of a statement. -/
theorem Graph.LaidOut.inHead {body : StmtId} {ss : List StmtId} {le : List ExprId}
    (h : g.LaidOut p body) (hp : StmtSpans p ss ls le) (hbody : body ∈ ls) (hn : n ∈ g.order) :
    (∃ node, g.nodes.get? n = some node ∧ (node.kind = .block ∨ node.kind = .finish)) ∨
      InHead g p ls g.order n := by
  obtain ⟨ns, last, outs, ends, horder, hlaid, hlast⟩ := h
  rw [horder] at hn ⊢
  rcases List.mem_append.1 hn with hn | hn
  · have hpart : ∀ s ∈ (Part.stmt body).stmts, s ∈ ls := fun s hs =>
      List.mem_singleton.1 hs ▸ hbody
    rcases hlaid.inHead hpart (fun s hs st hst t ht => hp.mem_of_mem_children hs hst ht) hn
      with ⟨node, hnode, hkind⟩ | hin
    · exact .inl ⟨node, hnode, .inl hkind⟩
    · exact .inr (hin.append_right _)
  · rw [List.mem_singleton.1 hn]
    exact .inl ⟨_, hlast.node, .inr rfl⟩

/-- A statement's own node, the row of its operations, and what it does last. -/
theorem Headed.exists_spelled {s : StmtId} {st : Stmt} {back : List OpenEdge} {row : List NodeId}
    (h : Headed g p parent s st back ins row outs ends) :
    ∃ m os ns mid, Sits g m .statement (.stmt s) parent ins ∧ p.Spells st.exprs os ∧
      Spelled g (some m) os ((m, none) :: back) ns mid ends ∧
      ((st.lastKind = none ∧ row = m :: ns ∧ outs = mid) ∨
        ∃ kind k, st.lastKind = some kind ∧ row = m :: (ns ++ [k]) ∧
          Sits g k kind (.stmt s) (some m) mid ∧ outs = [(k, none)]) := by
  cases h with
  | plain hlast hm hos hrow => exact ⟨_, _, _, _, hm, hos, hrow, .inl ⟨hlast, rfl, rfl⟩⟩
  | last hlast hm hos hrow hk =>
    exact ⟨_, _, _, _, hm, hos, hrow, .inr ⟨_, _, hlast, rfl, hk, rfl⟩⟩

/-- A node in a row is that of an operation, a place where the way parts, or stands for an
    expression without operation. -/
theorem Spelled.exists_of_mem {os : List Operation} (h : Spelled g parent os ins ns outs ends)
    (hn : n ∈ ns) : ∃ kind e, g.nodes.get? n = some ⟨kind, .expr e, parent⟩ ∧
      (⟨kind, e⟩ ∈ os ∨ (∃ call, kind = .optionalThrow call) ∨ kind = .nop) := by
  induction h with
  | nil => cases hn
  | @op o _ _ _ _ _ _ hm _ ih =>
    rcases List.mem_cons.1 hn with rfl | hn
    · exact ⟨o.kind, o.expr, hm.node, .inl List.mem_cons_self⟩
    · obtain ⟨kind, e, hnode, h⟩ := ih hn
      exact ⟨kind, e, hnode, h.imp_left (List.mem_cons_of_mem _)⟩
  | @call o call _ _ _ _ _ _ _ ho hm hk _ ih =>
    rcases List.mem_cons.1 hn with rfl | hn
    · exact ⟨_, o.expr, hm.node, .inr (.inl ⟨call, rfl⟩)⟩
    · rcases List.mem_cons.1 hn with rfl | hn
      · exact ⟨_, o.expr, hk.node, .inl (by rw [← ho]; exact List.mem_cons_self)⟩
      · obtain ⟨kind, e, hnode, h⟩ := ih hn
        exact ⟨kind, e, hnode, h.imp_left (List.mem_cons_of_mem _)⟩
  | nop hm _ ih =>
    rcases List.mem_cons.1 hn with rfl | hn
    · exact ⟨_, _, hm.node, .inr (.inr rfl)⟩
    · exact ih hn

/-- Whether a node reads or writes a variable or makes a call. -/
def NodeKind.operates : NodeKind → Bool
  | read _ | write .. | readWrite _ | call _ => true
  | _ => false

/-- A node that does something to variables, or makes a call, is in the row of a statement, for an
    operation that the statement makes, or it is what a declaration does last. -/
theorem Graph.LaidOut.exists_operation {body : StmtId} {ss : List StmtId} {le : List ExprId}
    (h : g.LaidOut p body) (hp : StmtSpans p ss ls le) (hbody : body ∈ ls) (hn : n ∈ g.order)
    {node : Node} (hnode : g.nodes.get? n = some node) (hkind : node.kind.operates = true) :
    ∃ s ∈ ls, ∃ st m around os, p.stmts.get? s = some st ∧ p.Spells st.exprs os ∧
      node.parent = some m ∧ g.nodes.get? m = some ⟨.statement, .stmt s, around⟩ ∧
      ((∃ e, node.origin = .expr e ∧ ⟨node.kind, e⟩ ∈ os) ∨
        ∃ v y, st = .declare v (some y) ∧ node.kind = .write v y) := by
  rcases h.inHead hp hbody hn with ⟨node', hnode', hkind'⟩ | hin
  · rw [hnode] at hnode'
    cases hnode'
    rcases hkind' with hkind' | hkind' <;> rw [hkind'] at hkind <;> cases hkind
  obtain ⟨s, st, _, row, _, around, _, _, _, _, hs, hst, hh, _, hmem⟩ := hin
  obtain ⟨m, os, ns, mid, hm, hos, hrow, hlast⟩ := hh.exists_spelled
  have hnm : n ≠ m := by
    rintro rfl
    rw [hm.node] at hnode
    cases hnode
    cases hkind
  have hplace : n ∈ ns ∨ ∃ kind, st.lastKind = some kind ∧ node = ⟨kind, .stmt s, some m⟩ := by
    rcases hlast with ⟨_, rfl, _⟩ | ⟨kind, k, hlast, rfl, hk, _⟩
    · exact .inl ((List.mem_cons.1 hmem).resolve_left hnm)
    · rcases List.mem_append.1 ((List.mem_cons.1 hmem).resolve_left hnm) with hmem | hmem
      · exact .inl hmem
      · rw [List.mem_singleton.1 hmem, hk.node] at hnode
        exact .inr ⟨kind, hlast, (Option.some.inj hnode).symm⟩
  rcases hplace with hns | ⟨kind, hlast, rfl⟩
  · obtain ⟨kind, e, hnode', hop⟩ := hrow.exists_of_mem hns
    rw [hnode] at hnode'
    cases hnode'
    rcases hop with hop | ⟨_, rfl⟩ | rfl
    · exact ⟨s, hs, st, m, around, os, hst, hos, rfl, hm.node, .inl ⟨e, rfl, hop⟩⟩
    · cases hkind
    · cases hkind
  · refine ⟨s, hs, st, m, around, os, hst, hos, rfl, hm.node, .inr ?_⟩
    cases st with
    | declare v init =>
      cases init with
      | none => cases hlast
      | some y => exact ⟨v, y, rfl, (Option.some.inj hlast).symm⟩
    | branch | loop | ret =>
      cases hlast
      cases hkind
    | _ => cases hlast

/-- A node that reads a variable is in the row of a statement, for an expression that the
    statement evaluates. -/
theorem Graph.LaidOut.exists_read {body : StmtId} {le : List ExprId} (h : g.LaidOut p body)
    (hp : p.Lists ls le) (hbody : body ∈ ls) (hn : n ∈ g.order) {v : VarId} {r : ExprId}
    (hnode : g.nodes.get? n = some ⟨.read v, .expr r, parent⟩) :
    ∃ s ∈ ls, ∃ st m around os, p.stmts.get? s = some st ∧ p.Spells st.exprs os ∧
      ⟨.read v, r⟩ ∈ os ∧ parent = some m ∧
      g.nodes.get? m = some ⟨.statement, .stmt s, around⟩ := by
  obtain ⟨s, hs, st, m, around, os, hst, hos, hparent, hm, ⟨e, horigin, ho⟩ | ⟨_, _, _, hkind⟩⟩ :=
    h.exists_operation hp.spans hbody hn hnode rfl
  · cases horigin
    exact ⟨s, hs, st, m, around, os, hst, hos, ho, hparent, hm⟩
  · cases hkind

/-! ### One node for each thing -/

/-- What nodes are marked with, in order. -/
def Graph.marks (g : Graph) (mark : Node → Option ExprId) (ns : List NodeId) : List ExprId :=
  ns.filterMap fun n => (g.nodes.get? n).bind mark

theorem Graph.marks_append (mark : Node → Option ExprId) :
    g.marks mark (ns ++ ms) = g.marks mark ns ++ g.marks mark ms :=
  List.filterMap_append

theorem Graph.marks_cons (mark : Node → Option ExprId) :
    g.marks mark (n :: ns) = ((g.nodes.get? n).bind mark).toList ++ g.marks mark ns := by
  rw [marks, List.filterMap_cons]
  cases (g.nodes.get? n).bind mark <;> rfl

/-- Nodes marked with the same thing are one node, if it is the mark of one at most. -/
theorem Graph.eq_of_marks {mark : Node → Option ExprId} {a : ExprId} {m : NodeId}
    (hcount : (g.marks mark ns).count a ≤ 1) (hn : n ∈ ns) (hm : m ∈ ns)
    (hna : (g.nodes.get? n).bind mark = some a) (hma : (g.nodes.get? m).bind mark = some a) :
    n = m := by
  by_contra hne
  have hm' : m ∈ ns.erase n := (List.mem_erase_of_ne (Ne.symm hne)).2 hm
  have hperm : ns.Perm (n :: m :: (ns.erase n).erase m) :=
    (List.perm_cons_erase hn).trans ((List.perm_cons_erase hm').cons n)
  have hmarks : (g.marks mark ns).count a = (g.marks mark (n :: m :: _)).count a :=
    (hperm.filterMap _).count_eq a
  simp only [marks_cons, hna, hma, Option.toList_some, List.cons_append, List.nil_append,
    List.count_cons_self] at hmarks
  omega

theorem StmtSpans.of_cons {s : StmtId} {ss : List StmtId} {le : List ExprId}
    (h : StmtSpans p (s :: ss) ls le) : ∃ l₁ e₁ l₂ e₂, StmtSpans p [s] l₁ e₁ ∧
      StmtSpans p ss l₂ e₂ ∧ le = e₁ ++ e₂ ∧ ls = l₁ ++ l₂ := by
  cases h with
  | cons hst how hbelow hothers =>
    refine ⟨_, _, _, _, .cons hst how hbelow .nil, hothers, ?_, ?_⟩
    · rw [List.append_nil, List.append_assoc]
    · rw [List.append_nil, List.cons_append]

/-- The marks of a row are those of its operations. -/
theorem Spelled.marks_eq {mark : Node → Option ExprId} {os : List Operation}
    (hthrow : ∀ e origin parent, mark ⟨.optionalThrow e, origin, parent⟩ = none)
    (hnop : ∀ origin parent, mark ⟨.nop, origin, parent⟩ = none)
    (h : Spelled g parent os ins ns outs ends) :
    g.marks mark ns = os.filterMap fun o => mark ⟨o.kind, .expr o.expr, parent⟩ := by
  induction h with
  | nil => rfl
  | @op o _ _ _ _ _ _ hm _ ih =>
    rw [Graph.marks_cons, hm.node, ih, List.filterMap_cons, Option.bind_some]
    cases mark ⟨o.kind, .expr o.expr, parent⟩ <;> rfl
  | @call o e _ _ _ _ _ _ _ ho hm hk _ ih =>
    rw [Graph.marks_cons, Graph.marks_cons, hm.node, hk.node, ih, List.filterMap_cons, ho,
      Option.bind_some, hthrow, Option.bind_some, Option.toList_none, List.nil_append]
    cases mark ⟨.call e, .expr o.expr, parent⟩ <;> rfl
  | nop hm _ ih =>
    rw [Graph.marks_cons, hm.node, ih, Option.bind_some, hnop]
    rfl

/-- Marks that only operations and what statements do last have, and no more of them than there
    are expressions. -/
structure Marks (p : Program) (mark : Node → Option ExprId) (a : ExprId) : Prop where
  block : ∀ origin parent, mark ⟨.block, origin, parent⟩ = none
  statement : ∀ origin parent, mark ⟨.statement, origin, parent⟩ = none
  throws : ∀ e origin parent, mark ⟨.optionalThrow e, origin, parent⟩ = none
  nop : ∀ origin parent, mark ⟨.nop, origin, parent⟩ = none
  finish : ∀ origin parent, mark ⟨.finish, origin, parent⟩ = none
  own : ∀ (s : StmtId) (st : Stmt) (parent : Option NodeId) (l : List ExprId)
    (os : List Operation), Emits p st.exprs l os →
    (os.filterMap fun o => mark ⟨o.kind, .expr o.expr, parent⟩).count a +
      (st.lastKind.toList.filterMap fun kind => mark ⟨kind, .stmt s, parent⟩).count a ≤ l.count a

namespace Marks

variable {mark : Node → Option ExprId} {a : ExprId} (hmark : Marks p mark a)
include hmark

theorem headed {s : StmtId} {st : Stmt} {back : List OpenEdge} {row : List NodeId}
    {own : List ExprId} (h : Headed g p parent s st back ins row outs ends)
    (how : Spans p st.exprs own) : (g.marks mark row).count a ≤ own.count a := by
  obtain ⟨m, os, ns, mid, hm, hos, hrow, hlast⟩ := h.exists_spelled
  obtain ⟨l, hl⟩ := Emits.exists_of_spells hos
  have hcount : l.count a ≤ own.count a := by
    rw [(hl.perm how).count_eq, List.count_append]
    omega
  have hown := hmark.own s st (some m) l os hl
  have hfirst : ((g.nodes.get? m).bind mark).toList = [] := by
    rw [hm.node, Option.bind_some, hmark.statement, Option.toList_none]
  rw [← hrow.marks_eq hmark.throws hmark.nop] at hown
  rcases hlast with ⟨hnone, rfl, _⟩ | ⟨kind, k, hkind, rfl, hk, _⟩
  · rw [Graph.marks_cons, hfirst, List.nil_append]
    omega
  · have hlast : g.marks mark [k] =
        st.lastKind.toList.filterMap fun kind => mark ⟨kind, .stmt s, some m⟩ := by
      simp only [Graph.marks, List.filterMap_cons, hk.node, Option.bind_some, hkind,
        Option.toList_some, List.filterMap_nil]
    rw [Graph.marks_cons, hfirst, List.nil_append, Graph.marks_append, List.count_append, hlast]
    omega

theorem laid {part : Part} {le : List ExprId} (h : Laid g p parent part ins ns outs ends)
    (hspans : StmtSpans p part.stmts ls le) : (g.marks mark ns).count a ≤ le.count a := by
  induction h generalizing ls le with
  | @block s ss parent m ns ins outs ends hst hm _ ih =>
    cases hspans with
    | cons hst' how hbelow hnil =>
      cases hnil
      rw [hst] at hst'
      cases hst'
      cases how
      have := ih hbelow
      rw [Graph.marks_cons, hm.node, Option.bind_some, hmark.block]
      simpa using this
  | straight hst _ hh | ret hst hh =>
    cases hspans with
    | cons hst' how hbelow hnil =>
      rw [hst] at hst'
      cases hst'
      have := hmark.headed hh how
      rw [List.count_append]
      omega
  | branch hst hh _ _ ih₁ ih₂ =>
    cases hspans with
    | cons hst' how hbelow hnil =>
      rw [hst] at hst'
      cases hst'
      obtain ⟨_, _, _, _, hthen, helse, rfl, _⟩ := hbelow.of_cons
      have := hmark.headed hh how
      have := ih₁ hthen
      have := ih₂ helse
      rw [← List.cons_append, Graph.marks_append, Graph.marks_append]
      simp only [List.count_append]
      omega
  | loop hst hh _ ih =>
    cases hspans with
    | cons hst' how hbelow hnil =>
      rw [hst] at hst'
      cases hst'
      have := hmark.headed hh how
      have := ih hbelow
      rw [← List.cons_append, Graph.marks_append]
      simp only [List.count_append]
      omega
  | nil => exact Nat.zero_le _
  | cons _ _ ih₁ ih₂ =>
    obtain ⟨_, _, _, _, hfirst, hrest, rfl, _⟩ := hspans.of_cons
    have := ih₁ hfirst
    have := ih₂ hrest
    rw [Graph.marks_append, List.count_append, List.count_append]
    omega

theorem laidOut {body : StmtId} {le : List ExprId} (h : g.LaidOut p body)
    (hp : p.Lists ls le) (hbody : body ∈ ls) : (g.marks mark g.order).count a ≤ 1 := by
  obtain ⟨ns, last, outs, ends, horder, hlaid, hlast⟩ := h
  obtain ⟨st, inner, own, below, hst, how, hbelow, _, hsub⟩ := hp.spans.exists_sublist hbody
  have hcount := hmark.laid hlaid (.cons hst how hbelow .nil)
  rw [List.append_nil] at hcount
  have hfinish : g.marks mark [last] = [] := by
    rw [Graph.marks_cons, hlast.node, Option.bind_some, hmark.finish]
    rfl
  rw [horder, Graph.marks_append, hfinish, List.append_nil]
  have := hsub.count_le a
  have := List.nodup_iff_count_le_one.1 hp.exprs_nodup a
  omega

end Marks

/-- The expression that a node reads a variable for. -/
def Node.read? (node : Node) : Option ExprId :=
  match node.kind, node.origin with
  | .read _, .expr e => some e
  | _, _ => none

/-- The value that a node writes as it is. -/
def Node.value? (node : Node) : Option ExprId :=
  match node.kind with
  | .write _ e => some e
  | _ => none

theorem marks_read (p : Program) (a : ExprId) : Marks p Node.read? a where
  block _ _ := rfl
  statement _ _ := rfl
  throws _ _ _ := rfl
  nop _ _ := rfl
  finish _ _ := rfl
  own s st parent l os h := by
    have hlast : (st.lastKind.toList.filterMap fun kind =>
        Node.read? ⟨kind, .stmt s, parent⟩) = [] :=
      List.filterMap_eq_nil_iff.2 fun kind _ => by cases kind <;> rfl
    have hops : ∀ os : List Operation, (os.filterMap fun o =>
        Node.read? ⟨o.kind, .expr o.expr, parent⟩).Sublist (os.map Operation.expr) := by
      intro os
      induction os with
      | nil => exact .slnil
      | cons o os ih =>
        rw [List.filterMap_cons, List.map_cons]
        cases o.kind with
        | read v => exact ih.cons_cons _
        | _ => exact ih.cons _
    have := (hops os).count_le a
    have := h.count_exprs_le a
    rw [hlast, List.count_nil]
    omega

theorem marks_value (p : Program) (a : ExprId) : Marks p Node.value? a where
  block _ _ := rfl
  statement _ _ := rfl
  throws _ _ _ := rfl
  nop _ _ := rfl
  finish _ _ := rfl
  own s st parent l os h := by
    have hvalues := h.count_values_le a
    have hops : (os.filterMap fun o => Node.value? ⟨o.kind, .expr o.expr, parent⟩) =
        os.filterMap Operation.value? := rfl
    have hlast : (st.lastKind.toList.filterMap fun kind =>
        Node.value? ⟨kind, .stmt s, parent⟩).Sublist st.exprs := by
      cases st with
      | declare v init => cases init <;> exact .refl _
      | _ => exact List.nil_sublist _
    have := hlast.count_le a
    rw [hops]
    omega

section Unique

variable {body : StmtId} {le : List ExprId} (h : g.LaidOut p body) (hp : p.Lists ls le)
  (hbody : body ∈ ls)
include h hp hbody

/-- A node that reads a variable is the only one for its expression. -/
theorem Graph.LaidOut.readsAlone (hn : n ∈ g.order) {v : VarId} {r : ExprId}
    (hnode : g.nodes.get? n = some ⟨.read v, .expr r, parent⟩) : g.ReadsAlone n parent r where
  mem := hn
  node := ⟨v, hnode⟩
  unique m hm u parent' hm' :=
    g.eq_of_marks ((marks_read p r).laidOut h hp hbody) hm hn (by rw [hm']; rfl)
      (by rw [hnode]; rfl)

/-- No two nodes write the same value. -/
theorem Graph.LaidOut.write_unique {m : NodeId} {node node' : Node} {u v : VarId} {y : ExprId}
    (hn : n ∈ g.order) (hm : m ∈ g.order) (hnode : g.nodes.get? n = some node)
    (hnode' : g.nodes.get? m = some node') (hkind : node.kind = .write u y)
    (hkind' : node'.kind = .write v y) : n = m :=
  g.eq_of_marks ((marks_value p y).laidOut h hp hbody) hn hm
    (by rw [hnode, Option.bind_some, Node.value?, hkind])
    (by rw [hnode', Option.bind_some, Node.value?, hkind'])

end Unique

/-! ### The row of a value -/

/-- A row of operations in two parts is a row for each part. -/
theorem Spelled.of_append {os₁ os₂ : List Operation}
    (h : Spelled g parent (os₁ ++ os₂) ins ns outs ends) :
    ∃ ns₁ ns₂ mid ends₁ ends₂, Spelled g parent os₁ ins ns₁ mid ends₁ ∧
      Spelled g parent os₂ mid ns₂ outs ends₂ ∧ ns = ns₁ ++ ns₂ ∧ ends = ends₁ ++ ends₂ := by
  generalize hos : os₁ ++ os₂ = os at h
  induction h generalizing os₁ with
  | nil =>
    obtain ⟨rfl, rfl⟩ := List.append_eq_nil_iff.1 hos
    exact ⟨[], [], _, [], [], .nil, .nil, rfl, rfl⟩
  | op hm h ih =>
    cases os₁ with
    | nil =>
      cases hos
      exact ⟨[], _, _, [], _, .nil, .op hm h, rfl, rfl⟩
    | cons o os₁ =>
      obtain ⟨rfl, hrest⟩ := List.cons.inj hos
      obtain ⟨ns₁, ns₂, mid, ends₁, ends₂, h₁, h₂, rfl, rfl⟩ := ih hrest
      exact ⟨_, ns₂, mid, ends₁, ends₂, .op hm h₁, h₂, rfl, rfl⟩
  | call ho hm hk h ih =>
    cases os₁ with
    | nil =>
      cases hos
      exact ⟨[], _, _, [], _, .nil, .call ho hm hk h, rfl, rfl⟩
    | cons o os₁ =>
      obtain ⟨rfl, hrest⟩ := List.cons.inj hos
      obtain ⟨ns₁, ns₂, mid, ends₁, ends₂, h₁, h₂, rfl, rfl⟩ := ih hrest
      exact ⟨_, ns₂, mid, _, ends₂, .call ho hm hk h₁, h₂, rfl, rfl⟩
  | nop hm _ ih =>
    obtain ⟨ns₁, ns₂, mid, ends₁, ends₂, h₁, h₂, rfl, rfl⟩ := ih hos
    exact ⟨_, ns₂, mid, ends₁, ends₂, .nop hm h₁, h₂, rfl, rfl⟩

/-- The node of an operation that is no call, in a row that begins with it. -/
theorem Spelled.of_cons {o : Operation} {os : List Operation} (ho : ∀ e, o.kind ≠ .call e)
    (h : Spelled g parent (o :: os) ins ns outs ends) :
    ∃ ns₁ k ns₂ mid, Spelled g parent [] ins ns₁ mid [] ∧ Sits g k o.kind (.expr o.expr) parent mid ∧
      Spelled g parent os [(k, none)] ns₂ outs ends ∧ ns = ns₁ ++ k :: ns₂ := by
  generalize hos : o :: os = all at h
  induction h with
  | nil => cases hos
  | op hm h =>
    obtain ⟨rfl, rfl⟩ := List.cons.inj hos
    exact ⟨[], _, _, _, .nil, hm, h, rfl⟩
  | call hcall =>
    obtain ⟨rfl, rfl⟩ := List.cons.inj hos
    exact absurd hcall (ho _)
  | nop hm _ ih =>
    obtain ⟨ns₁, k, ns₂, mid, h₁, hk, h₂, rfl⟩ := ih hos
    exact ⟨_, k, ns₂, mid, .nop hm h₁, hk, h₂, rfl⟩

theorem Emits.of_append {es es' l : List ExprId} {os : List Operation}
    (h : Emits p (es ++ es') l os) : ∃ l₁ l₂ os₁ os₂, Emits p es l₁ os₁ ∧ Emits p es' l₂ os₂ ∧
      l = l₁ ++ l₂ ∧ os = os₁ ++ os₂ := by
  induction es generalizing l os with
  | nil => exact ⟨[], l, [], os, .nil, h, rfl, rfl⟩
  | cons e es ih =>
    cases h with
    | cons he hx hinner hrest =>
      obtain ⟨l₁, l₂, os₁, os₂, h₁, h₂, rfl, rfl⟩ := ih hrest
      exact ⟨_, l₂, _, os₂, .cons he hx hinner h₁, h₂, by simp, by simp⟩

/-- The operations of a value come right before the one that writes it. -/
theorem Emits.exists_value {es l : List ExprId} {os : List Operation} (h : Emits p es l os)
    {o : Operation} (ho : o ∈ os) {v : VarId} {y : ExprId} (hkind : o.kind = .write v y) :
    ∃ before inner after l', Emits p [y] l' inner ∧ os = before ++ (inner ++ o :: after) := by
  induction h with
  | nil => cases ho
  | @cons e x ins own es inner rest before after hx hown hins _ ih₁ ih₂ =>
    rcases List.mem_append.1 ho with ho | ho
    · obtain ⟨before', inner', after', l', hy, rfl⟩ := ih₁ ho
      exact ⟨before', inner', after' ++ (own ++ after), l', hy, by simp⟩
    rcases List.mem_append.1 ho with hmem | ho
    · -- Only an assignment writes a value, and evaluates it last.
      obtain ⟨_, ⟨_, hread, _⟩ | ⟨u, t, z, objects, hwrite, rfl, _, rfl⟩ | ⟨_, hboth, _⟩ | ⟨hcall, _⟩⟩ :=
        Program.own_cases hown hmem
      · cases hkind.symm.trans hread
      · cases hkind.symm.trans hwrite
        obtain ⟨l₁, l₂, os₁, os₂, _, hy, rfl, rfl⟩ := hins.of_append
        obtain rfl : own = [o] := by
          rcases Program.own_eq_of_emits hown with rfl | ⟨kind, rfl⟩
          · cases hmem
          · rw [List.mem_singleton.1 hmem]
        exact ⟨os₁, os₂, after, l₂, hy, by simp⟩
      · cases hkind.symm.trans hboth
      · cases hkind.symm.trans hcall
    · obtain ⟨before', inner', after', l', hy, rfl⟩ := ih₂ ho
      exact ⟨before ++ (own ++ before'), inner', after', l', hy, by simp⟩

/-- The operations of a value stand in a row right before the node that writes it. -/
theorem Graph.LaidOut.exists_value_row {body : StmtId} {le : List ExprId} {w : NodeId}
    {node : Node} {v : VarId} {y : ExprId} (h : g.LaidOut p body) (hp : p.Lists ls le)
    (hbody : body ∈ ls) (hw : w ∈ g.order) (hnode : g.nodes.get? w = some node)
    (hkind : node.kind = .write v y) :
    ∃ before row after parent ins ends l os, g.order = before ++ (row ++ w :: after) ∧
      Emits p [y] l os ∧ Spelled g parent os ins row (g.arrivals w) ends := by
  rcases h.inHead hp.spans hbody hw with ⟨node', hnode', hkind'⟩ | hin
  · rw [hnode] at hnode'
    cases hnode'
    rcases hkind' with hkind' | hkind' <;> cases hkind.symm.trans hkind'
  obtain ⟨s, st, before, row, after, around, _, _, _, _, _, hst, hh, horder, hmem⟩ := hin
  obtain ⟨m, os, ns, mid, hm, hos, hrow, hlast⟩ := hh.exists_spelled
  obtain ⟨l, hl⟩ := Emits.exists_of_spells hos
  have hwm : w ≠ m := by
    rintro rfl
    rw [hm.node] at hnode
    cases hnode
    cases hkind
  -- The write is an operation of the row, or what a declaration does last.
  have hplace : w ∈ ns ∨ ∃ k, row = m :: (ns ++ [k]) ∧ w = k ∧ g.arrivals k = mid := by
    rcases hlast with ⟨_, rfl, _⟩ | ⟨kind, k, _, rfl, hk, _⟩
    · exact .inl ((List.mem_cons.1 hmem).resolve_left hwm)
    · rcases List.mem_append.1 ((List.mem_cons.1 hmem).resolve_left hwm) with hmem | hmem
      · exact .inl hmem
      · exact .inr ⟨k, rfl, List.mem_singleton.1 hmem, hk.arrivals⟩
  rcases hplace with hwn | ⟨k, rfl, rfl, harr⟩
  · obtain ⟨tail, hrowns⟩ : ∃ tail, row = m :: (ns ++ tail) := by
      rcases hlast with ⟨_, rfl, _⟩ | ⟨_, k, _, rfl, _⟩
      · exact ⟨[], by rw [List.append_nil]⟩
      · exact ⟨[k], rfl⟩
    obtain ⟨kind, e, hnode', hop⟩ := hrow.exists_of_mem hwn
    rw [hnode] at hnode'
    cases hnode'
    change kind = .write v y at hkind
    obtain hop : ⟨kind, e⟩ ∈ os := by
      rcases hop with hop | ⟨_, hop⟩ | hop
      · exact hop
      · cases hkind.symm.trans hop
      · cases hkind.symm.trans hop
    obtain ⟨os₁, inner, os₂, l', hy, rfl⟩ := hl.exists_value hop hkind
    obtain ⟨ns₁, _, mid₁, _, _, _, hrest, rfl, _⟩ := hrow.of_append
    obtain ⟨ns₂, _, mid₂, ends₂, _, hinner, hwrite, rfl, _⟩ := hrest.of_append
    obtain ⟨ns₃, k, ns₄, mid₃, hnops, hk, _, rfl⟩ := hwrite.of_cons
      fun c (hc : kind = .call c) => by cases hkind.symm.trans hc
    have hkorder : k ∈ g.order := by
      rw [horder, hrowns]
      simp
    obtain rfl : w = k := h.write_unique hp hbody hw hkorder hnode hk.node hkind hkind
    have hvalue := hinner.append hnops
    rw [List.append_nil, ← hk.arrivals] at hvalue
    refine ⟨before ++ m :: ns₁, ns₂ ++ ns₃, ns₄ ++ (tail ++ after), _, _, _, l', inner, ?_, hy,
      hvalue⟩
    rw [horder, hrowns]
    simp
  · rcases hlast with ⟨_, heq, _⟩ | ⟨kind, k, hkind', heq, hk, _⟩
    · exact absurd (congrArg List.length heq) (by simp)
    · obtain rfl : w = k := by simpa using heq
      rw [hk.node] at hnode
      cases hnode
      change kind = .write v y at hkind
      rw [hkind] at hkind'
      obtain rfl : st = .declare v (some y) := by
        cases st with
        | declare _ init => cases init <;> cases hkind'; rfl
        | _ => cases hkind'
      rw [← harr] at hrow
      exact ⟨before ++ [m], ns, after, _, _, _, l, os, by rw [horder]; simp, hl, hrow⟩

/-- The statement around a node is found, if the node was made for something in it. -/
theorem Graph.containingStatement_of_parent {m : NodeId} {node : Node} {s : StmtId}
    {around : Option NodeId} (hnode : g.nodes.get? n = some node) (hkind : node.kind ≠ .statement)
    (hparent : node.parent = some m) (hm : g.nodes.get? m = some ⟨.statement, .stmt s, around⟩) :
    g.containingStatement n = .ok (some m) := by
  have hsize := Arena.get?_eq_some_lt hnode
  obtain ⟨depth, hdepth⟩ : ∃ depth, g.nodes.size = depth + 1 := ⟨g.nodes.size - 1, by omega⟩
  obtain ⟨kind, origin, parent⟩ := node
  subst hparent
  rw [containingStatement, hdepth, unroll_succ, containingStatementStep,
    Arena.get_eq_ok_iff.2 hnode]
  refine (if_neg hkind).trans ?_
  rw [unroll_succ, containingStatementStep, Arena.get_eq_ok_iff.2 hm]
  rfl

/-- The statement around a node that reads a variable is found. -/
theorem Graph.containingStatement_eq {m : NodeId} {v : VarId} {r : ExprId} {s : StmtId}
    {around : Option NodeId} (hnode : g.nodes.get? n = some ⟨.read v, .expr r, some m⟩)
    (hm : g.nodes.get? m = some ⟨.statement, .stmt s, around⟩) :
    g.containingStatement n = .ok (some m) :=
  containingStatement_of_parent hnode (fun h => by cases h) rfl hm

end Dataflow
