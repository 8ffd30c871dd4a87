import Dataflow.Proofs.Trees
import Mathlib.Data.List.Dedup
import Mathlib.Logic.Relation

/-!
# Everything inside expressions and statements

Lists of all expressions inside given ones (`Spans`), and of all statements and
expressions inside given statements (`StmtSpans`). Proofs about a function on
expressions or statements go by induction on these: they follow the parts, and they
exist exactly where following the parts comes to an end.

* `Program.Lists`: everything in the bodies of a program, each thing once;
* `Program.IsForest.lists`, `Program.Lists.isForest`: this is what being a forest means;
* `Spans.forall_unroll`: what recursion along operands gives, from what one level of it gives;
* `Spans.unroll_eq`: recursion along operands may go any number of levels deep, if that
  number is no less than that of the different expressions;
* `Program.Inside`: one piece of a program is inside another, as a relation.
-/

namespace Dataflow

/-- A list of expressions, and the list of all expressions inside them, each before its
    operands. -/
inductive Spans (p : Program) : List ExprId → List ExprId → Prop
  | nil : Spans p [] []
  | cons {e : ExprId} {x : Expr} {es inner rest : List ExprId} : p.exprs.get? e = some x →
    Spans p x.operands inner → Spans p es rest → Spans p (e :: es) (e :: (inner ++ rest))

/-- A list of statements, the list of all statements inside them, each before those inside it,
    and the list of all expressions inside these. -/
inductive StmtSpans (p : Program) : List StmtId → List StmtId → List ExprId → Prop
  | nil : StmtSpans p [] [] []
  | cons {s : StmtId} {st : Stmt} {ss inner rest : List StmtId} {own below others : List ExprId} :
    p.stmts.get? s = some st → Spans p st.exprs own → StmtSpans p st.children inner below →
    StmtSpans p ss rest others →
    StmtSpans p (s :: ss) (s :: (inner ++ rest)) (own ++ (below ++ others))

namespace Program

/-- All statements and expressions in the bodies of methods, each once. -/
structure Lists (p : Program) (stmts : List StmtId) (exprs : List ExprId) : Prop where
  spans : StmtSpans p (p.bodies.map Prod.snd) stmts exprs
  stmts_nodup : stmts.Nodup
  exprs_nodup : exprs.Nodup

end Program

/-! ### Walks and spans -/

section Walks

variable {p : Program}

/-- A walk of expressions and statements, taken apart. -/
theorem Walk.exists_spans {xs all : List Piece} (h : Walk p xs all) :
    ∀ (es : List ExprId) (ss : List StmtId), xs = es.map .expr ++ ss.map .stmt →
      ∃ l ls le, Spans p es l ∧ StmtSpans p ss ls le ∧
        all.Perm (l.map .expr ++ (ls.map .stmt ++ le.map .expr)) := by
  induction h with
  | nil =>
    intro es ss h
    obtain ⟨hes, hss⟩ := List.append_eq_nil_iff.1 h.symm
    cases List.map_eq_nil_iff.1 hes
    cases List.map_eq_nil_iff.1 hss
    exact ⟨[], [], [], .nil, .nil, .nil⟩
  | @cons x xs ys inner rest hx _ _ ih₁ ih₂ =>
    intro es ss h
    cases es with
    | cons e es =>
      -- An expression: its parts are expressions only.
      obtain ⟨rfl, hrest⟩ := List.cons.inj h
      obtain ⟨z, hz, rfl⟩ := Option.map_eq_some_iff.1 hx
      obtain ⟨l₁, ls₁, le₁, hl₁, hs₁, hperm₁⟩ := ih₁ z.operands [] (List.append_nil _).symm
      obtain ⟨l₂, ls₂, le₂, hl₂, hs₂, hperm₂⟩ := ih₂ es ss hrest
      cases hs₁
      refine ⟨_, _, _, .cons hz hl₁ hl₂, hs₂, ?_⟩
      simp only [List.map_nil, List.append_nil] at hperm₁
      simp only [List.map_cons, List.map_append, List.cons_append, List.append_assoc]
      exact (hperm₁.append hperm₂).cons _
    | nil =>
      cases ss with
      | nil => cases h
      | cons s ss =>
        obtain ⟨rfl, hrest⟩ := List.cons.inj h
        obtain ⟨st, hst, rfl⟩ := Option.map_eq_some_iff.1 hx
        obtain ⟨l₁, ls₁, le₁, hl₁, hs₁, hperm₁⟩ := ih₁ st.exprs st.children rfl
        obtain ⟨l₂, ls₂, le₂, hl₂, hs₂, hperm₂⟩ := ih₂ [] ss hrest
        cases hl₂
        refine ⟨[], _, _, .nil, .cons hst hl₁ hs₁ hs₂, ?_⟩
        simp only [List.map_nil, List.nil_append] at hperm₂
        simp only [List.map_nil, List.nil_append, List.map_cons, List.map_append,
          List.cons_append]
        refine ((hperm₁.append hperm₂).cons _).trans (List.Perm.cons _ ?_)
        rw [List.perm_iff_count]
        intro y
        simp only [List.count_append]
        omega

theorem Spans.walk {es l : List ExprId} (h : Spans p es l) :
    Walk p (es.map .expr) (l.map .expr) := by
  induction h with
  | nil => exact .nil
  | cons he _ _ ih₁ ih₂ =>
    rw [List.map_cons, List.map_cons, List.map_append]
    exact .cons (by rw [Program.parts, he]; rfl) ih₁ ih₂

theorem StmtSpans.exists_walk {ss ls : List StmtId} {le : List ExprId}
    (h : StmtSpans p ss ls le) :
    ∃ all, Walk p (ss.map .stmt) all ∧ all.Perm (ls.map .stmt ++ le.map .expr) := by
  induction h with
  | nil => exact ⟨[], .nil, .nil⟩
  | cons hs how _ _ ih₁ ih₂ =>
    obtain ⟨inner, hinner, hperm₁⟩ := ih₁
    obtain ⟨rest, hrest, hperm₂⟩ := ih₂
    refine ⟨_, .cons (by rw [Program.parts, hs]; rfl) (how.walk.append hinner) hrest, ?_⟩
    simp only [List.map_cons, List.map_append, List.cons_append]
    refine List.Perm.cons _ ((((List.Perm.refl _).append hperm₁).append hperm₂).trans ?_)
    rw [List.perm_iff_count]
    intro y
    simp only [List.count_append]
    omega

end Walks

namespace Program

variable {p : Program}

theorem roots_eq (p : Program) : p.roots = (p.bodies.map Prod.snd).map .stmt := by
  rw [roots, List.map_map]
  rfl

/-- The pieces of a list of statements and of one of expressions differ if those in each do. -/
theorem nodup_pieces_iff {ls : List StmtId} {le : List ExprId} :
    (ls.map Piece.stmt ++ le.map Piece.expr).Nodup ↔ ls.Nodup ∧ le.Nodup := by
  rw [List.nodup_append, List.nodup_map_iff fun _ _ h => Piece.stmt.inj h,
    List.nodup_map_iff fun _ _ h => Piece.expr.inj h]
  refine ⟨fun h => ⟨h.1, h.2.1⟩, fun h => ⟨h.1, h.2, ?_⟩⟩
  rintro x hx y hy rfl
  obtain ⟨_, _, rfl⟩ := List.mem_map.1 hx
  obtain ⟨_, _, hy⟩ := List.mem_map.1 hy
  cases hy

theorem IsForest.exists_lists (h : p.IsForest) : ∃ ls le, p.Lists ls le := by
  obtain ⟨all, hw, hnodup⟩ := h
  rw [roots_eq] at hw
  obtain ⟨l, ls, le, hl, hspans, hperm⟩ := hw.exists_spans [] _ rfl
  cases hl
  obtain ⟨hls, hle⟩ := nodup_pieces_iff.1 (hperm.nodup_iff.1 hnodup)
  exact ⟨ls, le, hspans, hls, hle⟩

theorem Lists.isForest {ls : List StmtId} {le : List ExprId} (h : p.Lists ls le) :
    p.IsForest := by
  obtain ⟨all, hw, hperm⟩ := h.spans.exists_walk
  rw [← roots_eq] at hw
  exact ⟨all, hw, hperm.nodup_iff.2 (nodup_pieces_iff.2 ⟨h.stmts_nodup, h.exprs_nodup⟩)⟩

end Program

/-- Fewer different members are in a list that lacks one of them. -/
theorem length_dedup_lt {α : Type} [DecidableEq α] {a : α} {l l' : List α} (ha : a ∈ l')
    (hl : l ⊆ l') (hnot : a ∉ l) : l.dedup.length < l'.dedup.length := by
  have hnodup : (a :: l.dedup).Nodup :=
    List.nodup_cons.2 ⟨mt List.mem_dedup.1 hnot, l.nodup_dedup⟩
  refine (hnodup.subperm fun b hb => List.mem_dedup.2 ?_).length_le
  rcases List.mem_cons.1 hb with rfl | hb
  · exact ha
  · exact hl (List.mem_dedup.1 hb)

theorem length_dedup_le {α : Type} [DecidableEq α] {l l' : List α} (h : l ⊆ l') :
    l.dedup.length ≤ l'.dedup.length :=
  (l.nodup_dedup.subperm fun _ ha => List.mem_dedup.2 (h (List.mem_dedup.1 ha))).length_le

/-- Below a handle there are fewer different ones than from it on, if it is not below itself. -/
theorem length_dedup_below_lt {α : Type} [DecidableEq α] {a : α} {below : List α} (h : a ∉ below)
    (beside : List α) : below.dedup.length < (a :: (below ++ beside)).dedup.length :=
  length_dedup_lt List.mem_cons_self
    (fun _ hb => List.mem_cons_of_mem a (List.mem_append_left beside hb)) h

theorem length_dedup_beside_le {α : Type} [DecidableEq α] (a : α) (below beside : List α) :
    beside.dedup.length ≤ (a :: (below ++ beside)).dedup.length :=
  length_dedup_le fun _ hb => List.mem_cons_of_mem a (List.mem_append_right below hb)

/-! ### Expressions inside expressions -/

namespace Spans

variable {p p' : Program} {es es' l l' : List ExprId} {e : ExprId}

theorem unique (h : Spans p es l) (h' : Spans p es l') : l' = l := by
  induction h generalizing l' with
  | nil =>
    cases h'
    rfl
  | cons hx _ _ ih₁ ih₂ =>
    cases h' with
    | cons hx' h₁ h₂ =>
      rw [hx] at hx'
      cases hx'
      rw [ih₁ h₁, ih₂ h₂]

theorem append (h : Spans p es l) (h' : Spans p es' l') : Spans p (es ++ es') (l ++ l') := by
  induction h with
  | nil => exact h'
  | cons he h _ _ ih =>
    rw [List.cons_append, List.cons_append, List.append_assoc]
    exact .cons he h ih

theorem mem_of_mem_roots (h : Spans p es l) (he : e ∈ es) : e ∈ l := by
  induction h with
  | nil => exact he
  | cons _ _ _ _ ih =>
    rcases List.mem_cons.1 he with rfl | he
    · exact List.mem_cons_self
    · exact List.mem_cons_of_mem _ (List.mem_append_right _ (ih he))

/-- The part of the list that is inside one of its expressions. -/
theorem exists_sublist (h : Spans p es l) (he : e ∈ l) :
    ∃ x inner, p.exprs.get? e = some x ∧ Spans p x.operands inner ∧ (e :: inner).Sublist l := by
  induction h with
  | nil => cases he
  | @cons e' x es inner rest hx hinner _ ih₁ ih₂ =>
    rcases List.mem_cons.1 he with rfl | he
    · exact ⟨x, inner, hx, hinner, (List.sublist_append_left inner rest).cons_cons e⟩
    · rcases List.mem_append.1 he with he | he
      · obtain ⟨y, l', hy, hspans, hsub⟩ := ih₁ he
        exact ⟨y, l', hy, hspans, (hsub.trans (List.sublist_append_left _ _)).cons _⟩
      · obtain ⟨y, l', hy, hspans, hsub⟩ := ih₂ he
        exact ⟨y, l', hy, hspans, (hsub.trans (List.sublist_append_right _ _)).cons _⟩

/-- What is inside some of the expressions is part of what is inside all of them. -/
theorem exists_of_sublist (h : Spans p es l) (hsub : es'.Sublist es) :
    ∃ l', Spans p es' l' ∧ l'.Sublist l := by
  induction h generalizing es' with
  | nil =>
    cases hsub
    exact ⟨[], .nil, .slnil⟩
  | @cons e x es inner rest hx hinner _ _ ih =>
    cases hsub with
    | cons _ hsub =>
      obtain ⟨l', hl', hsub'⟩ := ih hsub
      exact ⟨l', hl', (hsub'.trans (List.sublist_append_right _ _)).cons e⟩
    | cons_cons _ hsub =>
      obtain ⟨l', hl', hsub'⟩ := ih hsub
      exact ⟨_, .cons hx hinner hl', ((List.Sublist.refl inner).append hsub').cons_cons e⟩

/-- Where all that is inside an expression can be listed, it is not inside itself. -/
theorem not_mem_inner {x : Expr} (hx : p.exprs.get? e = some x) (h : Spans p x.operands l) :
    e ∉ l := by
  intro he
  obtain ⟨y, inner, hy, hinner, hsub⟩ := h.exists_sublist he
  cases hx.symm.trans hy
  rw [h.unique hinner] at hsub
  exact absurd hsub.length_le (Nat.not_succ_le_self _)

theorem exists_get (h : Spans p es l) (he : e ∈ l) : ∃ x, p.exprs.get? e = some x := by
  obtain ⟨x, _, hx, _⟩ := h.exists_sublist he
  exact ⟨x, hx⟩

theorem mem_of_mem_operands (h : Spans p es l) (he : e ∈ l) {x : Expr}
    (hx : p.exprs.get? e = some x) {o : ExprId} (ho : o ∈ x.operands) : o ∈ l := by
  obtain ⟨y, inner, hy, hinner, hsub⟩ := h.exists_sublist he
  rw [hx] at hy
  cases hy
  exact hsub.subset (List.mem_cons_of_mem _ (hinner.mem_of_mem_roots ho))

/-- The list is the same in any program that has the same expressions in it. -/
theorem congr (h : Spans p es l) (hl : ∀ e ∈ l, p'.exprs.get? e = p.exprs.get? e) :
    Spans p' es l := by
  induction h with
  | nil => exact .nil
  | cons hx _ _ ih₁ ih₂ =>
    rw [List.forall_mem_cons, List.forall_mem_append] at hl
    exact .cons (hl.1.trans hx) (ih₁ hl.2.1) (ih₂ hl.2.2)

theorem index_lt (h : Spans p es l) (he : e ∈ l) : e.index < p.exprs.size := by
  obtain ⟨x, hx⟩ := h.exists_get he
  exact Arena.get?_eq_some_lt hx

theorem length_le (h : Spans p es l) (hl : l.Nodup) : l.length ≤ p.exprs.size :=
  Arena.length_le_size hl fun _ he => h.index_lt he

theorem length_dedup_le (h : Spans p es l) : l.dedup.length ≤ p.exprs.size :=
  Arena.length_le_size l.nodup_dedup fun _ he => h.index_lt (List.mem_dedup.1 he)

section Unroll

variable {β : Type} {stop : β} {step : (ExprId → β) → ExprId → β}

/-- What recursion into an expression gives, from what it gives for the expressions inside. It takes
    as many levels as there are different expressions, however often some of them occur. -/
theorem forall_unroll {P : ExprId → β → Prop} (h : Spans p es l)
    (hstep : ∀ e ∈ l, ∀ f x inner, p.exprs.get? e = some x → Spans p x.operands inner →
      (∀ o ∈ inner, P o (f o)) → P e (step f e)) {depth : Nat} (hdepth : l.dedup.length ≤ depth) :
    ∀ e ∈ l, P e (unroll stop step depth e) := by
  induction h generalizing depth with
  | nil => exact fun e he => absurd he List.not_mem_nil
  | @cons e x es inner rest hx hinner _ ih₁ ih₂ =>
    have hbelow := length_dedup_below_lt (not_mem_inner hx hinner) rest
    have hbeside := length_dedup_beside_le e inner rest
    obtain ⟨depth, rfl⟩ : ∃ k, depth = k + 1 := ⟨depth - 1, by omega⟩
    rw [List.forall_mem_cons, List.forall_mem_append] at hstep ⊢
    exact ⟨hstep.1 _ x inner hx hinner (ih₁ hstep.2.1 (by omega)), ih₁ hstep.2.1 (by omega),
      ih₂ hstep.2.2 (by omega)⟩

variable
  (hstep : ∀ f g e x inner, p.exprs.get? e = some x → Spans p x.operands inner →
    (∀ o ∈ inner, f o = g o) → step f e = step g e)
include hstep

/-- Recursion into an expression may go any number of levels deep, if that number is no less
    than that of the different expressions inside, however often some of them occur. -/
theorem unroll_eq (h : Spans p es l) {m n : Nat} (hm : l.dedup.length ≤ m)
    (hn : l.dedup.length ≤ n) : ∀ e ∈ l, unroll stop step m e = unroll stop step n e := by
  induction h generalizing m n with
  | nil => simp
  | @cons e x es inner rest hx hinner _ ih₁ ih₂ =>
    have hbelow := length_dedup_below_lt (not_mem_inner hx hinner) rest
    have hbeside := length_dedup_beside_le e inner rest
    obtain ⟨m, rfl⟩ : ∃ k, m = k + 1 := ⟨m - 1, by omega⟩
    obtain ⟨n, rfl⟩ : ∃ k, n = k + 1 := ⟨n - 1, by omega⟩
    rw [List.forall_mem_cons, List.forall_mem_append]
    exact ⟨hstep _ _ e x inner hx hinner (ih₁ (by omega) (by omega)), ih₁ (by omega) (by omega),
      ih₂ (by omega) (by omega)⟩

end Unroll

end Spans

/-! ### Statements inside statements -/

namespace StmtSpans

variable {p p' : Program} {ss ls : List StmtId} {le : List ExprId} {s : StmtId} {e : ExprId}

theorem unique {ls' : List StmtId} {le' : List ExprId} (h : StmtSpans p ss ls le) (h' : StmtSpans p ss ls' le') :
    ls' = ls ∧ le' = le := by
  induction h generalizing ls' le' with
  | nil =>
    cases h'
    exact ⟨rfl, rfl⟩
  | cons hst how _ _ ih₁ ih₂ =>
    cases h' with
    | cons hst' how' hbelow' hothers' =>
      cases hst.symm.trans hst'
      obtain ⟨rfl, rfl⟩ := ih₁ hbelow'
      obtain ⟨rfl, rfl⟩ := ih₂ hothers'
      rw [how.unique how']
      exact ⟨rfl, rfl⟩

theorem mem_of_mem_roots (h : StmtSpans p ss ls le) (hs : s ∈ ss) : s ∈ ls := by
  induction h with
  | nil => exact hs
  | cons _ _ _ _ _ ih =>
    rcases List.mem_cons.1 hs with rfl | hs
    · exact List.mem_cons_self
    · exact List.mem_cons_of_mem _ (List.mem_append_right _ (ih hs))

/-- The parts of the lists that are inside one of the statements. -/
theorem exists_sublist (h : StmtSpans p ss ls le) (hs : s ∈ ls) :
    ∃ st inner own below, p.stmts.get? s = some st ∧ Spans p st.exprs own ∧
      StmtSpans p st.children inner below ∧ (s :: inner).Sublist ls ∧ (own ++ below).Sublist le := by
  induction h with
  | nil => cases hs
  | @cons s' st ss inner rest own below others hst how hbelow _ ih₁ ih₂ =>
    rcases List.mem_cons.1 hs with rfl | hs
    · refine ⟨st, inner, own, below, hst, how, hbelow,
        (List.sublist_append_left inner rest).cons_cons s, ?_⟩
      rw [← List.append_assoc]
      exact List.sublist_append_left _ _
    · rcases List.mem_append.1 hs with hs | hs
      · obtain ⟨st', inner', own', below', hst', how', hbelow', hsub, hsub'⟩ := ih₁ hs
        refine ⟨st', inner', own', below', hst', how', hbelow',
          (hsub.trans (List.sublist_append_left _ _)).cons _, ?_⟩
        exact (hsub'.trans (List.sublist_append_left _ _)).trans (List.sublist_append_right _ _)
      · obtain ⟨st', inner', own', below', hst', how', hbelow', hsub, hsub'⟩ := ih₂ hs
        refine ⟨st', inner', own', below', hst', how', hbelow',
          (hsub.trans (List.sublist_append_right _ _)).cons _, ?_⟩
        exact (hsub'.trans (List.sublist_append_right _ _)).trans (List.sublist_append_right _ _)

/-- Where all that is inside a statement can be listed, it is not inside itself. -/
theorem not_mem_inner {st : Stmt} (hst : p.stmts.get? s = some st)
    (h : StmtSpans p st.children ls le) : s ∉ ls := by
  intro hs
  obtain ⟨st', inner, _, _, hst', _, hinner, hsub, _⟩ := h.exists_sublist hs
  cases hst.symm.trans hst'
  rw [(h.unique hinner).1] at hsub
  exact absurd hsub.length_le (Nat.not_succ_le_self _)

/-- Every expression inside statements is inside one that a statement owns itself. -/
theorem exists_own (h : StmtSpans p ss ls le) (he : e ∈ le) :
    ∃ s ∈ ls, ∃ st own, p.stmts.get? s = some st ∧ Spans p st.exprs own ∧ e ∈ own ∧
      own.Sublist le := by
  induction h with
  | nil => cases he
  | @cons s st ss inner rest own below others hst how _ _ ih₁ ih₂ =>
    rcases List.mem_append.1 he with he | he
    · exact ⟨s, List.mem_cons_self, st, own, hst, how, he, List.sublist_append_left _ _⟩
    · rcases List.mem_append.1 he with he | he
      · obtain ⟨t, ht, st', own', hst', how', he', hsub⟩ := ih₁ he
        exact ⟨t, List.mem_cons_of_mem _ (List.mem_append_left _ ht), st', own', hst', how', he',
          (hsub.trans (List.sublist_append_left _ _)).trans (List.sublist_append_right _ _)⟩
      · obtain ⟨t, ht, st', own', hst', how', he', hsub⟩ := ih₂ he
        exact ⟨t, List.mem_cons_of_mem _ (List.mem_append_right _ ht), st', own', hst', how', he',
          (hsub.trans (List.sublist_append_right _ _)).trans (List.sublist_append_right _ _)⟩

/-- The statements inside listed ones are listed. -/
theorem mem_of_mem_children (h : StmtSpans p ss ls le) {t : StmtId} {st : Stmt} (hs : s ∈ ls)
    (hst : p.stmts.get? s = some st) (ht : t ∈ st.children) : t ∈ ls := by
  obtain ⟨st', inner, _, _, hst', _, hbelow, hsub, _⟩ := h.exists_sublist hs
  rw [hst] at hst'
  cases hst'
  exact hsub.subset (List.mem_cons_of_mem _ (hbelow.mem_of_mem_roots ht))

/-- The expressions of listed statements are listed. -/
theorem mem_of_mem_exprs (h : StmtSpans p ss ls le) {st : Stmt} (hs : s ∈ ls)
    (hst : p.stmts.get? s = some st) (he : e ∈ st.exprs) : e ∈ le := by
  obtain ⟨st', _, own, _, hst', how, _, _, hsub⟩ := h.exists_sublist hs
  rw [hst] at hst'
  cases hst'
  exact hsub.subset (List.mem_append_left _ (how.mem_of_mem_roots he))

/-- The lists of all that is inside a listed statement are parts of the lists. -/
theorem exists_stmtSpans (h : StmtSpans p ss ls le) (hs : s ∈ ls) :
    ∃ ls' le', StmtSpans p [s] ls' le' ∧ ls'.Sublist ls ∧ le'.Sublist le := by
  obtain ⟨st, inner, own, below, hst, how, hbelow, hsub, hsub'⟩ := h.exists_sublist hs
  refine ⟨_, _, .cons hst how hbelow .nil, ?_, ?_⟩
  · rwa [List.append_nil]
  · rwa [List.append_nil]

/-- The list of all that is inside a listed expression is part of the list. -/
theorem exists_spans (h : StmtSpans p ss ls le) (he : e ∈ le) :
    ∃ l, Spans p [e] l ∧ l.Sublist le := by
  obtain ⟨_, _, _, own, _, how, hmem, hsub⟩ := h.exists_own he
  obtain ⟨x, inner, hx, hinner, hsub'⟩ := how.exists_sublist hmem
  refine ⟨e :: inner, ?_, hsub'.trans hsub⟩
  simpa using Spans.cons hx hinner .nil

/-- The operands of listed expressions are listed. -/
theorem mem_of_mem_operands (h : StmtSpans p ss ls le) (he : e ∈ le) {x : Expr} {o : ExprId}
    (hx : p.exprs.get? e = some x) (ho : o ∈ x.operands) : o ∈ le := by
  obtain ⟨l, hspans, hsub⟩ := h.exists_spans he
  exact hsub.subset
    (hspans.mem_of_mem_operands (hspans.mem_of_mem_roots (List.mem_singleton_self e)) hx ho)

theorem expr_index_lt (h : StmtSpans p ss ls le) (he : e ∈ le) : e.index < p.exprs.size := by
  obtain ⟨_, _, _, _, _, how, hmem, _⟩ := h.exists_own he
  exact how.index_lt hmem

theorem stmt_index_lt (h : StmtSpans p ss ls le) (hs : s ∈ ls) : s.index < p.stmts.size := by
  obtain ⟨_, _, _, _, hst, _⟩ := h.exists_sublist hs
  exact Arena.get?_eq_some_lt hst

/-- The lists are the same in any program that has the same statements and expressions in them. -/
theorem congr (h : StmtSpans p ss ls le) (hls : ∀ s ∈ ls, p'.stmts.get? s = p.stmts.get? s)
    (hle : ∀ e ∈ le, p'.exprs.get? e = p.exprs.get? e) : StmtSpans p' ss ls le := by
  induction h with
  | nil => exact .nil
  | cons hs how _ _ ih₁ ih₂ =>
    rw [List.forall_mem_cons, List.forall_mem_append] at hls
    rw [List.forall_mem_append, List.forall_mem_append] at hle
    exact .cons (hls.1.trans hs) (how.congr hle.1) (ih₁ hls.2.1 hle.2.1) (ih₂ hls.2.2 hle.2.2)

theorem length_dedup_le (h : StmtSpans p ss ls le) : ls.dedup.length ≤ p.stmts.size :=
  Arena.length_le_size ls.nodup_dedup fun _ hs => h.stmt_index_lt (List.mem_dedup.1 hs)

end StmtSpans

/-! ### Pieces inside pieces -/

namespace Program

variable {p : Program}

/-- One piece of a program is a part of another. -/
def HasPart (p : Program) (x y : Piece) : Prop := ∃ ys, p.parts x = some ys ∧ y ∈ ys

/-- One piece of a program is inside another, or is that one. -/
def Inside (p : Program) : Piece → Piece → Prop := Relation.ReflTransGen p.HasPart

theorem Inside.operand {y : Piece} {e o : ExprId} {x : Expr} (h : p.Inside y (.expr e))
    (hx : p.exprs.get? e = some x) (ho : o ∈ x.operands) : p.Inside y (.expr o) :=
  h.tail ⟨x.operands.map .expr, by rw [parts, hx]; rfl, List.mem_map_of_mem ho⟩

theorem Inside.expr {y : Piece} {s : StmtId} {st : Stmt} {e : ExprId} (h : p.Inside y (.stmt s))
    (hs : p.stmts.get? s = some st) (he : e ∈ st.exprs) : p.Inside y (.expr e) :=
  h.tail ⟨_, by rw [parts, hs]; rfl, List.mem_append_left _ (List.mem_map_of_mem he)⟩

theorem Inside.child {y : Piece} {s t : StmtId} {st : Stmt} (h : p.Inside y (.stmt s))
    (hs : p.stmts.get? s = some st) (ht : t ∈ st.children) : p.Inside y (.stmt t) :=
  h.tail ⟨_, by rw [parts, hs]; rfl, List.mem_append_right _ (List.mem_map_of_mem ht)⟩

end Program

section Inside

variable {p : Program} {ls : List StmtId} {le : List ExprId}

theorem Spans.exists_inside {es l : List ExprId} {e : ExprId} (h : Spans p es l) (he : e ∈ l) :
    ∃ o ∈ es, p.Inside (.expr o) (.expr e) := by
  induction h with
  | nil => cases he
  | @cons o x es inner rest hx _ _ ih₁ ih₂ =>
    rcases List.mem_cons.1 he with rfl | he
    · exact ⟨e, List.mem_cons_self, .refl⟩
    · rcases List.mem_append.1 he with he | he
      · obtain ⟨o', ho', hin⟩ := ih₁ he
        exact ⟨o, List.mem_cons_self, (Program.Inside.operand .refl hx ho').trans hin⟩
      · obtain ⟨o', ho', hin⟩ := ih₂ he
        exact ⟨o', List.mem_cons_of_mem _ ho', hin⟩

theorem StmtSpans.exists_inside {ss : List StmtId} {s : StmtId} (h : StmtSpans p ss ls le)
    (hs : s ∈ ls) : ∃ b ∈ ss, p.Inside (.stmt b) (.stmt s) := by
  induction h with
  | nil => cases hs
  | @cons b st ss inner rest _ _ _ hst _ _ _ ih₁ ih₂ =>
    rcases List.mem_cons.1 hs with rfl | hs
    · exact ⟨s, List.mem_cons_self, .refl⟩
    · rcases List.mem_append.1 hs with hs | hs
      · obtain ⟨b', hb', hin⟩ := ih₁ hs
        exact ⟨b, List.mem_cons_self, (Program.Inside.child .refl hst hb').trans hin⟩
      · obtain ⟨b', hb', hin⟩ := ih₂ hs
        exact ⟨b', List.mem_cons_of_mem _ hb', hin⟩

/-- A piece is one of the listed statements or expressions. -/
def Piece.Listed (ls : List StmtId) (le : List ExprId) : Piece → Prop
  | stmt s => s ∈ ls
  | expr e => e ∈ le

/-- What is inside the listed is listed. -/
theorem Program.Inside.listed {ss : List StmtId} (h : StmtSpans p ss ls le) {y z : Piece}
    (hin : p.Inside y z) (hy : y.Listed ls le) : z.Listed ls le := by
  induction hin with
  | refl => exact hy
  | @tail y z _ hpart ih =>
    obtain ⟨ys, hys, hz⟩ := hpart
    cases y with
    | stmt s =>
      obtain ⟨st, hst, rfl⟩ := Option.map_eq_some_iff.1 hys
      rcases List.mem_append.1 hz with hz | hz
      · obtain ⟨e, he, rfl⟩ := List.mem_map.1 hz
        exact h.mem_of_mem_exprs ih hst he
      · obtain ⟨t, ht, rfl⟩ := List.mem_map.1 hz
        exact h.mem_of_mem_children ih hst ht
    | expr e =>
      obtain ⟨x, hx, rfl⟩ := Option.map_eq_some_iff.1 hys
      obtain ⟨o, ho, rfl⟩ := List.mem_map.1 hz
      exact h.mem_of_mem_operands ih hx ho

end Inside

end Dataflow
