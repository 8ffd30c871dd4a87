import Dataflow.Proofs.Agreement

/-!
# Bodies that are left alone

Inlining in one body leaves all other bodies as they are. What holds of a graph of such a body
still holds afterwards, although the program is another one: the graph follows the body, and its
nodes have the effects that they had.

* `Laid.congr`, `Graph.LaidOut.congr`: graphs follow the same statements in another program;
* `Inlining.HasEffect.congr`: nodes have the same effects there;
* `Inlining.exhausted_of_reaches`: no read of a known value comes up in another body.
-/

namespace Dataflow

variable {p q : Program} {ss l : List StmtId} {e : List ExprId}

/-! ### Operations -/

theorem Program.emits_congr {o : ExprId} {x : Expr}
    (h : ∀ t ∈ x.targets, q.exprs.get? t = p.exprs.get? t) : q.emits o x = p.emits o x := by
  cases x with
  | assign t | compound _ t | increment _ t =>
    have ht : q.targetParts t = p.targetParts t := by
      rw [targetParts, targetParts, h t (List.mem_singleton_self t)]
    simp only [emits, ht]
  | _ => rfl

theorem Emits.congr {es evaluated all : List ExprId} {os : List Operation}
    (h : Emits p es evaluated os) (hall : Spans p es all)
    (hexprs : ∀ o ∈ all, q.exprs.get? o = p.exprs.get? o) : Emits q es evaluated os := by
  induction h generalizing all with
  | nil => exact .nil
  | cons hx hown _ _ ih₁ ih₂ =>
    cases hall with
    | cons hy hinner hrest =>
      cases hx.symm.trans hy
      obtain ⟨inside, hinside, rfl⟩ := Program.spans_of_emits hown hinner
      rw [List.forall_mem_cons, List.forall_mem_append, List.forall_mem_append] at hexprs
      obtain ⟨he, ⟨htargets, hins⟩, hes⟩ := hexprs
      exact .cons (he.trans hx) ((Program.emits_congr htargets).trans hown) (ih₁ hinside hins)
        (ih₂ hrest hes)

/-- The same expressions have the same operations. -/
theorem Program.SameOn.spells (h : p.SameOn q l e) {es all : List ExprId} {os : List Operation}
    (hos : p.Spells es os) (hall : Spans p es all) (hsub : all.Sublist e) (hnodup : e.Nodup) :
    q.Spells es os := by
  obtain ⟨evaluated, hem⟩ := Emits.exists_of_spells hos
  refine (hem.congr hall fun o ho => h.expr o (hsub.subset ho)).spells ?_
  -- There are as many levels as expressions, and the other program has no fewer of these.
  have hlen := (hem.perm hall).length_eq
  have hsize := hall.length_le (hnodup.sublist hsub)
  have hgrown := h.exprs_size
  rw [List.length_append] at hlen
  omega

/-! ### Graphs -/

section Graphs

variable {g : Graph} {parent : Option NodeId} {ins outs ends : List OpenEdge} {ns : List NodeId}
  (h : p.SameOn q l e) (hspans : StmtSpans p ss l e) (hnodup : e.Nodup)
include h hspans hnodup

theorem Headed.congr {s : StmtId} {st : Stmt} {back : List OpenEdge} (hs : s ∈ l)
    (hst : p.stmts.get? s = some st) (hhead : Headed g p parent s st back ins ns outs ends) :
    Headed g q parent s st back ins ns outs ends := by
  obtain ⟨st', inner, own, below, hst', how, _, _, hsub⟩ := hspans.exists_sublist hs
  cases hst.symm.trans hst'
  have hown := (List.sublist_append_left own below).trans hsub
  cases hhead with
  | plain hnone hn hos hrow => exact .plain hnone hn (h.spells hos how hown hnodup) hrow
  | last hkind hn hos hrow hk => exact .last hkind hn (h.spells hos how hown hnodup) hrow hk

theorem Laid.congr {part : Part} (hlaid : Laid g p parent part ins ns outs ends)
    (hpart : ∀ s ∈ part.stmts, s ∈ l) : Laid g q parent part ins ns outs ends := by
  have hstmt : ∀ {s st}, s ∈ l → p.stmts.get? s = some st → q.stmts.get? s = some st :=
    fun hs hst => (h.stmt _ hs).trans hst
  have hinside : ∀ {s st}, s ∈ l → p.stmts.get? s = some st → ∀ t ∈ st.children, t ∈ l :=
    fun hs hst _ ht => hspans.mem_of_mem_children hs hst ht
  induction hlaid with
  | block hst hn _ ih =>
    have hs := hpart _ (List.mem_singleton_self _)
    exact .block (hstmt hs hst) hn (ih (hinside hs hst))
  | straight hst hstraight hhead =>
    have hs := hpart _ (List.mem_singleton_self _)
    exact .straight (hstmt hs hst) hstraight (hhead.congr h hspans hnodup hs hst)
  | ret hst hhead =>
    have hs := hpart _ (List.mem_singleton_self _)
    exact .ret (hstmt hs hst) (hhead.congr h hspans hnodup hs hst)
  | branch hst hhead _ _ ih₁ ih₂ =>
    have hs := hpart _ (List.mem_singleton_self _)
    refine .branch (hstmt hs hst) (hhead.congr h hspans hnodup hs hst)
      (ih₁ fun t ht => hinside hs hst t ?_)
      (ih₂ fun t ht => hinside hs hst t (List.mem_cons_of_mem _ ht))
    rw [List.mem_singleton.1 ht]
    exact List.mem_cons_self
  | loop hst hhead _ ih =>
    have hs := hpart _ (List.mem_singleton_self _)
    exact .loop (hstmt hs hst) (hhead.congr h hspans hnodup hs hst) (ih (hinside hs hst))
  | nil => exact .nil
  | cons _ _ ih₁ ih₂ =>
    rw [Part.stmts, List.forall_mem_cons] at hpart
    exact .cons (ih₁ (List.forall_mem_singleton.2 hpart.1)) (ih₂ hpart.2)

theorem Graph.LaidOut.congr {body : StmtId} (hlaid : g.LaidOut p body) (hbody : body ∈ l) :
    g.LaidOut q body := by
  obtain ⟨ns, last, outs, ends, horder, hlaid, hlast⟩ := hlaid
  exact ⟨ns, last, outs, ends, horder,
    hlaid.congr h hspans hnodup (List.forall_mem_singleton.2 hbody), hlast⟩

end Graphs

/-! ### Effects -/

namespace Inlining

variable {g : Graph} {body : StmtId}

theorem Remembers.congr (h : p.SameOn q l e) {v : VarId} {y : ExprId} {inside : List ExprId}
    {value : Option ExprId} (hinside : inside.Sublist e) (hy : Remembers q v y inside value) :
    Remembers p v y inside value := by
  have hget : ∀ o ∈ inside, q.exprs.get? o = p.exprs.get? o := fun o ho =>
    h.expr o (hinside.subset ho)
  have hinert : q.Inert inside ↔ p.Inert inside :=
    forall₂_congr fun o ho => by simp only [hget o ho, Program.impureHead_congr h.methods]
  have havoids : q.Avoids inside v ↔ p.Avoids inside v :=
    forall₂_congr fun o ho => by simp only [hget o ho]
  rwa [Remembers, hinert, havoids] at hy

/-- The nodes of a graph have the same effects with the same pieces. -/
theorem HasEffect.congr {n : NodeId} {f : Effect} (h : p.SameOn q l e)
    (hspans : StmtSpans p ss l e) (hp : p.InRange) (hq : q.InRange)
    (hlaid : g.LaidOut p body) (hbody : body ∈ l) (hn : n ∈ g.order)
    (hf : HasEffect .declared p g n f) : HasEffect .declared q g n f := by
  obtain ⟨node, hnode, heffect⟩ := hf
  refine ⟨node, hnode, ?_⟩
  -- Only writes and calls ask the program, and only about what is inside the body.
  cases hkind : node.kind with
  | write v y =>
    obtain ⟨hy, hv⟩ := value_mem hlaid hspans hbody hn hnode hkind hp
    obtain ⟨inside, hinside, hsub⟩ := hspans.exists_spans hy
    obtain ⟨tracked, value, ht, hvalue, heffect'⟩ := effect_write hp hv hinside
    obtain ⟨tracked', value', ht', hvalue', heffect''⟩ := effect_write hq (h.vars ▸ hv)
      (hinside.congr fun o ho => h.expr o (hsub.subset ho))
    have hofMethod : q.isOfMethod v = p.isOfMethod v := by
      rw [Program.isOfMethod, Program.isOfMethod, h.vars]
    cases (hofMethod.symm.trans ht').symm.trans ht
    rw [hvalue.unique (hvalue'.congr h hsub)] at heffect'
    rw [heffect'', ← heffect', ← hkind, heffect]
  | call o =>
    obtain ⟨ho, x, hx, hcall⟩ := call_mem hlaid hspans hbody hn hnode hkind
    rw [effect_call hq ((h.expr o ho).trans hx) hcall, Program.impureHead_congr h.methods,
      ← effect_call hp hx hcall, ← hkind, heffect]
  | _ =>
    rw [hkind] at heffect
    exact heffect

/-- A body is without reads of known values in any program with the same body. -/
theorem Exhausted.congr (h : p.SameOn q l e) (hspans : StmtSpans p [body] l e) (hnodup : e.Nodup)
    (hq : q.IsTree) (hlists : ∃ ls le, q.Lists ls le ∧ body ∈ ls) (hbody : Exhausted p body) :
    Exhausted q body := by
  obtain ⟨φ, hφ, hreads⟩ := hbody
  have hmem := hspans.mem_of_mem_roots (List.mem_singleton_self body)
  refine ⟨φ, {
    tree := hq
    lists := hlists
    linked := hφ.linked
    laidOut := hφ.laidOut.congr h hspans hnodup hmem
    settled := hφ.settled
    effects := fun n hn => ?_ }, hreads⟩
  exact (hφ.effects n hn).congr h hspans hφ.tree.inRange hq.inRange hφ.laidOut hmem hn

/-! ### Sweeps over other bodies -/

section Sweeps

variable {g₀ : Graph} {s s' : Sweep Known} {b : StmtId}

theorem Progresses.exhausted (h : Progresses g₀ body s s') (hs : Sound g₀ body s)
    (hbody : body ∈ s.program.bodies.map Prod.snd) (hb : b ∈ s.program.bodies.map Prod.snd)
    (hne : body ≠ b) (hex : Exhausted s.program b) : Exhausted s'.program b := by
  cases h.moves with
  | pass => exact hex
  | replace _ hp hin =>
    obtain ⟨l, e, hspans, hnodup, hsame⟩ := hp.exists_sameOn hs hin hbody hb hne
    have hlists := hin.edited.lists hp.lists
    refine hex.congr hsame hspans hnodup h.sound.tree ⟨_, _, hlists, ?_⟩
    exact hp.lists.spans.mem_of_mem_roots hb

/-- No read of a known value comes up in another body. -/
theorem exhausted_of_reaches (h : Relation.ReflTransGen (Progresses g₀ body) s s')
    (hs : Sound g₀ body s) (hbody : body ∈ s.program.bodies.map Prod.snd)
    (hb : b ∈ s.program.bodies.map Prod.snd) (hne : body ≠ b) (hex : Exhausted s.program b) :
    Exhausted s'.program b := by
  induction h with
  | refl => exact hex
  | tail hreach hlast ih =>
    have hbodies := bodies_eq_of_reaches hreach
    exact hlast.exhausted (hs.of_reaches hreach) (by rwa [hbodies]) (by rwa [hbodies]) hne ih

theorem loopsStir_of_reaches (h : Relation.ReflTransGen (Progresses g₀ body) s s')
    (hs : Sound g₀ body s) (hloops : s.program.LoopsStir) : s'.program.LoopsStir := by
  induction h with
  | refl => exact hloops
  | tail hreach hlast ih =>
    cases hlast.moves with
    | pass => exact ih
    | replace _ hp hin =>
      exact hin.edited.loopsStir (hs.of_reaches hreach).tree.inRange hp.lists ih

end Sweeps

end Inlining

end Dataflow
