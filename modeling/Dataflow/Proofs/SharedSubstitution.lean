import Dataflow.Proofs.Acyclic
import Dataflow.Proofs.Edits
import Mathlib.Algebra.BigOperators.Group.Finset.Basic
import Mathlib.Data.Fintype.Fin

/-!
# Substitution where parts are shared

`Program.replaceExpr` follows the handles beneath a statement and comes to what is shared once for
each way there. It works on copies of what it finds, and writes them back once it is done below
them. Where nothing is inside itself, and what is replaced is not inside what replaces it, no
change is lost and none is made twice: the slots that it comes to and that held the one expression
hold the other one, all others are as they were, and each slot is counted once.

* `Program.Opened`, `Program.Exposed`: what substitution comes to, and the slots there;
* `Program.Redirects`: a program some of whose pieces are redirected already;
* `Program.Covers`: what a part of a substitution does, wherever it begins;
* `Program.replaceExpr_exact`: what the whole of it does.
-/

namespace Dataflow

/-! ### Ranks -/

/-- Along a relation without cycles everything has a rank, no more than there are things. -/
theorem exists_rank {α : Type} {R : α → α → Prop} {P : α → Prop} (all : Finset α)
    (hall : ∀ x, P x → x ∈ all) (hstep : ∀ x y, P x → R x y → P y)
    (hirrefl : ∀ x, P x → ¬Relation.TransGen R x x) :
    ∃ rank : α → Nat, (∀ x, rank x ≤ all.card) ∧ ∀ x y, P x → R x y → rank y < rank x := by
  classical
  refine ⟨fun x => (all.filter (Relation.TransGen R x)).card, fun x => Finset.card_filter_le _ _,
    fun x y hx hxy => Finset.card_lt_card ?_⟩
  have hy := hstep x y hx hxy
  refine (Finset.ssubset_iff_of_subset fun z hz => ?_).2 ⟨y, ?_, ?_⟩
  · rw [Finset.mem_filter] at hz ⊢
    exact ⟨hz.1, .head hxy hz.2⟩
  · exact Finset.mem_filter.2 ⟨hall y hy, .single hxy⟩
  · exact fun hz => hirrefl y hy (Finset.mem_filter.1 hz).2

namespace Program

variable {p q : Program} {r c : ExprId}

/-! ### What substitution comes to -/

/-- A part of a piece that substitution goes on to: one that it does not replace. -/
def Opens (p : Program) (r : ExprId) (x y : Piece) : Prop := p.HasPart x y ∧ y ≠ .expr r

/-- A piece that substitution comes to from another one, past no slot that holds `r`. -/
def Opened (p : Program) (r : ExprId) : Piece → Piece → Prop := Relation.ReflTransGen (p.Opens r)

/-- A slot that substitution beneath a statement comes to. -/
def Exposed (p : Program) (root : StmtId) (r : ExprId) (a : Slot) : Prop :=
  ∃ x, a.owner = some x ∧ p.Opened r (.stmt root) x

theorem Opened.inside {x y : Piece} (h : p.Opened r x y) : p.Inside x y := by
  induction h with
  | refl => exact .refl
  | tail _ hstep ih => exact ih.tail hstep.1

theorem hasPart_expr_iff {e : ExprId} {y : Piece} :
    p.HasPart (.expr e) y ↔ ∃ x, p.exprs.get? e = some x ∧ ∃ o ∈ x.operands, y = .expr o := by
  constructor
  · rintro ⟨ys, hys, hy⟩
    obtain ⟨x, hx, rfl⟩ := Option.map_eq_some_iff.1 hys
    obtain ⟨o, ho, rfl⟩ := List.mem_map.1 hy
    exact ⟨x, hx, o, ho, rfl⟩
  · rintro ⟨x, hx, o, ho, rfl⟩
    exact ⟨_, by rw [parts, hx]; rfl, List.mem_map_of_mem ho⟩

theorem hasPart_stmt_iff {s : StmtId} {y : Piece} :
    p.HasPart (.stmt s) y ↔ ∃ st, p.stmts.get? s = some st ∧
      ((∃ e ∈ st.exprs, y = .expr e) ∨ ∃ t ∈ st.children, y = .stmt t) := by
  constructor
  · rintro ⟨ys, hys, hy⟩
    obtain ⟨st, hst, rfl⟩ := Option.map_eq_some_iff.1 hys
    refine ⟨st, hst, (List.mem_append.1 hy).imp ?_ ?_⟩
    · rintro hy
      obtain ⟨e, he, rfl⟩ := List.mem_map.1 hy
      exact ⟨e, he, rfl⟩
    · rintro hy
      obtain ⟨t, ht, rfl⟩ := List.mem_map.1 hy
      exact ⟨t, ht, rfl⟩
  · rintro ⟨st, hst, h⟩
    refine ⟨_, by rw [parts, hst]; rfl, List.mem_append.2 (h.imp ?_ ?_)⟩
    · rintro ⟨e, he, rfl⟩
      exact List.mem_map_of_mem he
    · rintro ⟨t, ht, rfl⟩
      exact List.mem_map_of_mem ht

/-- There are only expressions inside an expression. -/
theorem Inside.exists_expr {e : ExprId} {y : Piece} (h : p.Inside (.expr e) y) :
    ∃ o, y = .expr o := by
  induction h with
  | refl => exact ⟨e, rfl⟩
  | tail _ hpart ih =>
    obtain ⟨o, rfl⟩ := ih
    obtain ⟨_, _, o', _, rfl⟩ := hasPart_expr_iff.1 hpart
    exact ⟨o', rfl⟩

/-! ### Slots -/

/-- The expressions that the slots of a piece hold. -/
def holds (p : Program) : Piece → List ExprId
  | .stmt s => (p.stmts.get? s).elim [] Stmt.exprs
  | .expr e => (p.exprs.get? e).elim [] Expr.operands

theorem holds_stmt {s : StmtId} {st : Stmt} (h : p.stmts.get? s = some st) :
    p.holds (.stmt s) = st.exprs := by
  rw [holds, h]
  rfl

theorem holds_expr {e : ExprId} {x : Expr} (h : p.exprs.get? e = some x) :
    p.holds (.expr e) = x.operands := by
  rw [holds, h]
  rfl

theorem hasPart_of_mem_holds {x : Piece} {e : ExprId} (h : e ∈ p.holds x) :
    p.HasPart x (.expr e) := by
  cases x with
  | stmt s =>
    cases hst : p.stmts.get? s with
    | none => simp [holds, hst] at h
    | some st =>
      rw [holds_stmt hst] at h
      exact hasPart_stmt_iff.2 ⟨st, hst, .inl ⟨e, h, rfl⟩⟩
  | expr e' =>
    cases hx : p.exprs.get? e' with
    | none => simp [holds, hx] at h
    | some x =>
      rw [holds_expr hx] at h
      exact hasPart_expr_iff.2 ⟨x, hx, e, h, rfl⟩

/-- The number of slots of some pieces that hold `r`. -/
def hits (p : Program) (r : ExprId) (done : Finset Piece) : Nat :=
  ∑ x ∈ done, (p.holds x).count r

theorem hits_insert {done : Finset Piece} {x : Piece} (h : x ∉ done) :
    p.hits r (insert x done) = p.hits r done + (p.holds x).count r := by
  rw [hits, Finset.sum_insert h, Nat.add_comm]
  rfl

/-! ### Redirected pieces -/

/-- A program as `p`, with the slots of some pieces redirected from `r` to `c`. -/
structure Redirects (p : Program) (r c : ExprId) (done : Finset Piece) (q : Program) : Prop where
  vars : q.vars = p.vars
  methods : q.methods = p.methods
  stmts_size : q.stmts.size = p.stmts.size
  exprs_size : q.exprs.size = p.exprs.size
  stmt : ∀ t, q.stmts.get? t =
    if .stmt t ∈ done then (p.stmts.get? t).map (Stmt.redirect r c) else p.stmts.get? t
  expr : ∀ e, q.exprs.get? e =
    if .expr e ∈ done then (p.exprs.get? e).map (Expr.redirect r c) else p.exprs.get? e

theorem Redirects.start (p : Program) (r c : ExprId) : p.Redirects r c ∅ p where
  vars := rfl
  methods := rfl
  stmts_size := rfl
  exprs_size := rfl
  stmt _ := by simp
  expr _ := by simp

variable {done : Finset Piece}

theorem Redirects.writeExpr (h : p.Redirects r c done q) {e : ExprId} {x : Expr}
    (hx : p.exprs.get? e = some x) : p.Redirects r c (insert (.expr e) done)
      { q with exprs := q.exprs.modify e fun _ => x.redirect r c } where
  vars := h.vars
  methods := h.methods
  stmts_size := h.stmts_size
  exprs_size := (Arena.size_modify _ _ _).trans h.exprs_size
  stmt t := by simpa using h.stmt t
  expr e' := by
    rw [Arena.get?_modify, h.expr]
    by_cases heq : e = e'
    · subst heq
      simp only [Finset.mem_insert_self, if_true, hx]
      split <;> rfl
    · simp [heq, Ne.symm heq]

theorem Redirects.writeStmt (h : p.Redirects r c done q) {s : StmtId} {st : Stmt}
    (hst : p.stmts.get? s = some st) : p.Redirects r c (insert (.stmt s) done)
      { q with stmts := q.stmts.modify s fun _ => st.redirect r c } where
  vars := h.vars
  methods := h.methods
  stmts_size := (Arena.size_modify _ _ _).trans h.stmts_size
  exprs_size := h.exprs_size
  stmt t := by
    rw [Arena.get?_modify, h.stmt]
    by_cases heq : s = t
    · subst heq
      simp only [Finset.mem_insert_self, if_true, hst]
      split <;> rfl
    · simp [heq, Ne.symm heq]
  expr e := by simpa using h.expr e

/-- The slots of a redirected piece hold what they held, redirected. -/
theorem Redirects.holds_eq (h : p.Redirects r c done q) (x : Piece) :
    q.holds x = if x ∈ done then (p.holds x).map (redirect r c) else p.holds x := by
  cases x with
  | stmt s =>
    rw [holds, holds, h.stmt]
    cases p.stmts.get? s <;> split <;> simp
  | expr e =>
    rw [holds, holds, h.expr]
    cases p.exprs.get? e <;> split <;> simp

/-- A slot holds what it held, or `c` in the place of `r`. -/
theorem Redirects.mem_of_mem_holds (h : p.Redirects r c done q) {x : Piece} {e : ExprId}
    (he : e ∈ q.holds x) : e ∈ p.holds x ∨ e = c ∧ r ∈ p.holds x := by
  rw [h.holds_eq] at he
  split at he
  · obtain ⟨e', he', rfl⟩ := List.mem_map.1 he
    rw [redirect]
    split
    · next heq => exact .inr ⟨rfl, heq ▸ he'⟩
    · exact .inl he'
  · exact .inl he

theorem Redirects.mem_holds (h : p.Redirects r c done q) {x : Piece} {e : ExprId}
    (he : e ∈ p.holds x) (hne : e ≠ r) : e ∈ q.holds x := by
  rw [h.holds_eq]
  split
  · exact List.mem_map.2 ⟨e, he, if_neg hne⟩
  · exact he

theorem not_mem_map_redirect (hne : c ≠ r) (es : List ExprId) : r ∉ es.map (redirect r c) := by
  intro h
  obtain ⟨e, _, he⟩ := List.mem_map.1 h
  rw [redirect] at he
  split at he
  · exact hne he
  · contradiction

/-- What stands at an expression by now; redirected, it is what is to stand there. -/
theorem Redirects.exists_expr (h : p.Redirects r c done q) (hne : c ≠ r) {e : ExprId} {x : Expr}
    (hx : p.exprs.get? e = some x) :
    ∃ y, q.exprs.get? e = some y ∧ y.redirect r c = x.redirect r c := by
  rw [h.expr, hx]
  split
  · refine ⟨_, rfl, Expr.redirect_of_not_mem ?_⟩
    rw [Expr.operands_redirect]
    exact not_mem_map_redirect hne _
  · exact ⟨x, rfl, rfl⟩

theorem Redirects.exists_stmt (h : p.Redirects r c done q) (hne : c ≠ r) {s : StmtId} {st : Stmt}
    (hst : p.stmts.get? s = some st) : ∃ st', q.stmts.get? s = some st' ∧
      st'.redirect r c = st.redirect r c ∧ st'.children = st.children := by
  rw [h.stmt, hst]
  split
  · refine ⟨_, rfl, Stmt.redirect_of_not_mem ?_, st.children_redirect⟩
    rw [Stmt.exprs_redirect]
    exact not_mem_map_redirect hne _
  · exact ⟨st, rfl, rfl, rfl⟩

/-! ### Parts of a substitution -/

/-- What a part of a substitution has done: everything that it came to from `xs` is redirected, and
    nothing else but what was and what is inside `c`. All new hits are counted, and `extra` ones
    of which the piece that holds them is not written yet. -/
structure Covered (p : Program) (r c : ExprId) (xs : List Piece) (extra : Nat)
    (done : Finset Piece) (s : Substitution) (done' : Finset Piece) (s' : Substitution) : Prop where
  redirects : p.Redirects r c done' s'.program
  subset : done ⊆ done'
  opened : ∀ x ∈ xs, ∀ y, p.Opened r x y → y ∈ done'
  only : ∀ y ∈ done', y ∈ done ∨ (∃ x ∈ xs, p.Opened r x y) ∨ p.Inside (.expr c) y
  count : s'.count + p.hits r done = s.count + p.hits r done' + extra

/-- A part of a substitution ends, with the result `a`, wherever it begins. -/
def Covers {α : Type} (p : Program) (r c : ExprId) (xs : List Piece) (extra : Nat)
    (m : StateT Substitution Run α) (a : α) : Prop :=
  ∀ done s, p.Redirects r c done s.program →
    ∃ done' s', m.run s = .ok (a, s') ∧ p.Covered r c xs extra done s done' s'

section Covers

variable {α β : Type} {xs ys : List Piece} {m n : Nat}

theorem covers_pure (a : α) : p.Covers r c [] 0 (pure a) a := fun done s hs =>
  ⟨done, s, rfl, hs, subset_rfl, fun _ hx => absurd hx List.not_mem_nil, fun _ hy => .inl hy, rfl⟩

theorem Covers.bind {x : StateT Substitution Run α} {f : α → StateT Substitution Run β} {a : α}
    {b : β} (hx : p.Covers r c xs m x a) (hf : p.Covers r c ys n (f a) b) :
    p.Covers r c (xs ++ ys) (m + n) (x >>= f) b := by
  intro done s hs
  obtain ⟨done₁, s₁, hrun₁, h₁⟩ := hx done s hs
  obtain ⟨done₂, s₂, hrun₂, h₂⟩ := hf done₁ s₁ h₁.redirects
  refine ⟨done₂, s₂, Run.bind_eq_ok.2 ⟨_, hrun₁, hrun₂⟩, h₂.redirects, h₁.subset.trans h₂.subset,
    fun x hx y hy => ?_, fun y hy => ?_, ?_⟩
  · rcases List.mem_append.1 hx with hx | hx
    · exact h₂.subset (h₁.opened x hx y hy)
    · exact h₂.opened x hx y hy
  · rcases h₂.only y hy with hy | ⟨x, hx, hopened⟩ | hin
    · rcases h₁.only y hy with hy | ⟨x, hx, hopened⟩ | hin
      · exact .inl hy
      · exact .inr (.inl ⟨x, List.mem_append_left _ hx, hopened⟩)
      · exact .inr (.inr hin)
    · exact .inr (.inl ⟨x, List.mem_append_right _ hx, hopened⟩)
    · exact .inr (.inr hin)
  · have := h₁.count
    have := h₂.count
    omega

/-- The pieces that substitution goes on to from slots that hold `es`. -/
def openSlots (r : ExprId) (es : List ExprId) : List Piece := (es.filter (· ≠ r)).map .expr

theorem mem_openSlots {es : List ExprId} {x : Piece} :
    x ∈ openSlots r es ↔ ∃ e ∈ es, e ≠ r ∧ x = .expr e := by
  simp only [openSlots, List.mem_map, List.mem_filter, decide_eq_true_eq, and_assoc,
    eq_comm (b := x)]

/-- Slots one after the other, each redirected or gone into. -/
theorem covers_slots {inside : ExprId → StateT Substitution Run Unit} {es : List ExprId}
    (h : ∀ e ∈ es, e ≠ r → p.Covers r c [.expr e] 0 (inside e) ()) :
    p.Covers r c (openSlots r es) (es.count r) (es.mapM (substituteSlot r c inside))
      (es.map (redirect r c)) := by
  induction es with
  | nil => exact covers_pure []
  | cons e es ih =>
    rw [List.forall_mem_cons] at h
    rw [List.mapM_cons]
    have hrest := (ih h.2).bind (f := fun bs => pure (redirect r c e :: bs)) (covers_pure _)
    rw [List.append_nil, Nat.add_zero] at hrest
    by_cases he : e = r
    · -- The slot is counted before the piece that it is part of is written.
      have hslot : p.Covers r c [] 1 (substituteSlot r c inside e) (redirect r c e) := by
        intro done s hs
        subst he
        refine ⟨done, { s with count := s.count + 1 }, ?_, hs, subset_rfl,
          fun _ hx => absurd hx List.not_mem_nil, fun _ hy => .inl hy, Nat.add_right_comm _ 1 _⟩
        rw [redirect, if_pos rfl]
        exact substituteSlot_self inside
      have hslots := hslot.bind (f := fun b => do
        let bs ← es.mapM (substituteSlot r c inside)
        pure (b :: bs)) hrest
      rw [openSlots, List.filter_cons_of_neg (by simp [he]), List.map_cons, he,
        List.count_cons_self, Nat.add_comm]
      rwa [he] at hslots
    · have hslot : p.Covers r c [.expr e] 0 (substituteSlot r c inside e) (redirect r c e) := by
        intro done s hs
        obtain ⟨done', s', hrun, hcovered⟩ := h.1 he done s hs
        refine ⟨done', s', ?_, hcovered⟩
        rw [redirect, if_neg he]
        exact substituteSlot_ne he hrun
      have hslots := hslot.bind (f := fun b => do
        let bs ← es.mapM (substituteSlot r c inside)
        pure (b :: bs)) hrest
      rw [openSlots, List.filter_cons_of_pos (by simp [he]), List.map_cons, List.map_cons,
        List.count_cons_of_ne he]
      rwa [Nat.zero_add] at hslots

theorem covers_forM {self : StmtId → StateT Substitution Run Unit} {ts : List StmtId}
    (h : ∀ t ∈ ts, p.Covers r c [.stmt t] 0 (self t) ()) :
    p.Covers r c (ts.map .stmt) 0 (ts.forM self) () := by
  induction ts with
  | nil => exact covers_pure ()
  | cons t ts ih =>
    rw [List.forall_mem_cons] at h
    exact h.1.bind (f := fun _ => ts.forM self) (ih h.2)

/-! The slots of one piece, when those inside them are done and it is its turn to be written. -/

section Turn

variable {done₁ : Finset Piece} {s s₁ : Substitution} {x : Piece}
  (hs : p.Redirects r c done s.program)
  (h : p.Covered r c (openSlots r (s.program.holds x)) ((s.program.holds x).count r) done s done₁
    s₁)
include hs h

theorem Covered.opened_slot {e : ExprId} (he : e ∈ p.holds x) (hne : e ≠ r) {z : Piece}
    (hz : p.Opened r (.expr e) z) : z ∈ done₁ :=
  h.opened _ (mem_openSlots.2 ⟨e, hs.mem_holds he hne, hne, rfl⟩) z hz

theorem Covered.only_turn {z : Piece} (hz : z ∈ insert x done₁) :
    z ∈ done ∨ p.Opened r x z ∨ p.Inside (.expr c) z := by
  rcases Finset.mem_insert.1 hz with rfl | hz
  · exact .inr (.inl .refl)
  · rcases h.only z hz with hz | ⟨w, hw, hopened⟩ | hin
    · exact .inl hz
    · obtain ⟨e, he, hne, rfl⟩ := mem_openSlots.1 hw
      rcases hs.mem_of_mem_holds he with he | ⟨rfl, _⟩
      · refine .inr (.inl (.head ⟨hasPart_of_mem_holds he, fun heq => ?_⟩ hopened))
        exact hne (Piece.expr.inj heq)
      · exact .inr (.inr hopened.inside)
    · exact .inr (.inr hin)

/-- The slots counted are those of a piece that was not done, unless there are none. -/
theorem Covered.hits_turn (hne : c ≠ r) (hfresh : x ∉ done → x ∈ done₁ → r ∉ p.holds x) :
    p.hits r (insert x done₁) = p.hits r done₁ + (s.program.holds x).count r := by
  rw [hs.holds_eq]
  split
  · next hmem =>
    rw [Finset.insert_eq_of_mem (h.subset hmem), List.count_eq_zero.2 (not_mem_map_redirect hne _),
      Nat.add_zero]
  · next hnot =>
    by_cases hmem : x ∈ done₁
    · rw [Finset.insert_eq_of_mem hmem, List.count_eq_zero.2 (hfresh hnot hmem), Nat.add_zero]
    · exact hits_insert hmem

end Turn

end Covers

/-! ### Expressions and statements -/

/-- A scope of substitution: its expressions are there, none is inside itself, and there is a rank
    that gets less from each to its operands, and to `c` where that comes to be an operand. -/
structure Scope (p : Program) (r c : ExprId) (scope : ExprId → Prop) (rank : ExprId → Nat) :
    Prop where
  ne : c ≠ r
  clear : ¬p.Inside (.expr c) (.expr r)
  there : ∀ e, scope e → ∃ x, p.exprs.get? e = some x
  irrefl : ∀ e, scope e → ¬Relation.TransGen p.HasPart (.expr e) (.expr e)
  operand : ∀ e o, scope e → o ∈ p.holds (.expr e) → scope o ∧ rank o < rank e
  replaced : ∀ e, scope e → r ∈ p.holds (.expr e) → scope c ∧ rank c < rank e
  rank_le : ∀ e, rank e ≤ p.exprs.size

section Expressions

variable {scope : ExprId → Prop} {rank : ExprId → Nat} {e : ExprId}

/-- Substitution inside an expression, as deep as its rank. -/
theorem Scope.covers_expr (h : p.Scope r c scope rank) {depth : Nat} (hdepth : rank e < depth)
    (he : scope e) : p.Covers r c [.expr e] 0
      (unroll (throw .endless) (substituteExprStep r c) depth e) () := by
  induction depth generalizing e with
  | zero => exact absurd hdepth (Nat.not_lt_zero _)
  | succ depth ih =>
    intro done s hs
    obtain ⟨x, hx⟩ := h.there e he
    obtain ⟨y, hy, hyx⟩ := hs.exists_expr h.ne hx
    have hinside : ∀ o ∈ s.program.holds (.expr e), o ≠ r → p.Covers r c [.expr o] 0
        (unroll (throw .endless) (substituteExprStep r c) depth o) () := by
      intro o ho _
      rcases hs.mem_of_mem_holds ho with ho | ⟨rfl, hr⟩
      · obtain ⟨hscope, hlt⟩ := h.operand e o he ho
        exact ih (by omega) hscope
      · obtain ⟨hscope, hlt⟩ := h.replaced e he hr
        exact ih (by omega) hscope
    obtain ⟨done₁, s₁, hrun, hcovered⟩ := covers_slots hinside done s hs
    have hlt : e.index < s₁.program.exprs.size := by
      rw [hcovered.redirects.exprs_size]
      exact Arena.get?_eq_some_lt hx
    rw [holds_expr hy] at hrun
    have hstep := substituteExprStep_eq_ok hy hrun hlt
    rw [show y.withOperands (y.operands.map (redirect r c)) = x.redirect r c from hyx] at hstep
    -- An expression is not inside its operands, and no slot inside `c` holds `r`.
    have hfresh : .expr e ∉ done → .expr e ∈ done₁ → r ∉ p.holds (.expr e) := by
      intro hnot hmem hr
      have hin : p.Inside (.expr c) (.expr e) := by
        rcases hcovered.only _ hmem with hmem | ⟨w, hw, hopened⟩ | hin
        · exact absurd hmem hnot
        · obtain ⟨o, ho, _, rfl⟩ := mem_openSlots.1 hw
          rcases hs.mem_of_mem_holds ho with ho | ⟨rfl, _⟩
          · exact absurd (.head' (hasPart_of_mem_holds ho) hopened.inside) (h.irrefl e he)
          · exact hopened.inside
        · exact hin
      exact h.clear (hin.tail (hasPart_of_mem_holds hr))
    refine ⟨insert (.expr e) done₁, _, hstep, hcovered.redirects.writeExpr hx,
      hcovered.subset.trans (Finset.subset_insert _ _), fun w hw z hz => ?_, fun z hz => ?_, ?_⟩
    · -- Whatever is come to from `e` is `e`, or is come to from an operand.
      rw [List.mem_singleton.1 hw] at hz
      rcases Relation.ReflTransGen.cases_head hz with rfl | ⟨v, ⟨hpart, hne⟩, hz⟩
      · exact Finset.mem_insert_self _ _
      · obtain ⟨x', hx', o, ho, rfl⟩ := hasPart_expr_iff.1 hpart
        rw [← holds_expr hx'] at ho
        exact Finset.mem_insert_of_mem
          (hcovered.opened_slot hs ho (fun heq => hne (congrArg Piece.expr heq)) hz)
    · exact (hcovered.only_turn hs hz).imp_right (.imp_left fun hopened =>
        ⟨_, List.mem_singleton_self _, hopened⟩)
    · have hcount := hcovered.count
      rw [hcovered.hits_turn hs h.ne hfresh]
      dsimp only
      omega

theorem Scope.covers_substituteExpr (h : p.Scope r c scope rank) (he : scope e) :
    p.Covers r c [.expr e] 0 (substituteExpr r c e) () := by
  intro done s hs
  have hdepth : rank e < s.program.exprDepth := by
    rw [exprDepth, hs.exprs_size]
    exact Nat.lt_succ_of_le (h.rank_le e)
  exact h.covers_expr hdepth he done s hs

/-- Substitution beneath a statement, as deep as its rank. -/
theorem Scope.covers_stmt (h : p.Scope r c scope rank) {stmtScope : StmtId → Prop}
    {stmtRank : StmtId → Nat}
    (hthere : ∀ t, stmtScope t → ∃ st, p.stmts.get? t = some st ∧
      (∀ e ∈ st.exprs, scope e ∧ scope c) ∧
      ∀ u ∈ st.children, stmtScope u ∧ stmtRank u < stmtRank t)
    {depth : Nat} {t : StmtId} (hdepth : stmtRank t < depth) (ht : stmtScope t) :
    p.Covers r c [.stmt t] 0 (unroll (throw .endless) (substituteStmtStep r c) depth t) () := by
  induction depth generalizing t with
  | zero => exact absurd hdepth (Nat.not_lt_zero _)
  | succ depth ih =>
    intro done s hs
    obtain ⟨st, hst, hexprs, hchildren⟩ := hthere t ht
    obtain ⟨st', hst', hredirect, hsame⟩ := hs.exists_stmt h.ne hst
    -- Its own expressions come first; no statement is inside them.
    have hinside : ∀ e ∈ s.program.holds (.stmt t), e ≠ r →
        p.Covers r c [.expr e] 0 (substituteExpr r c e) () := by
      intro e he _
      rw [← holds_stmt hst] at hexprs
      rcases hs.mem_of_mem_holds he with he | ⟨rfl, hr⟩
      · exact h.covers_substituteExpr (hexprs e he).1
      · exact h.covers_substituteExpr (hexprs r hr).2
    obtain ⟨done₁, s₁, hrun, hcovered⟩ := covers_slots hinside done s hs
    have hfresh : .stmt t ∉ done → .stmt t ∈ done₁ → r ∉ p.holds (.stmt t) := by
      intro hnot hmem
      rcases hcovered.only _ hmem with hmem | ⟨w, hw, hopened⟩ | hin
      · exact absurd hmem hnot
      · obtain ⟨e, _, _, rfl⟩ := mem_openSlots.1 hw
        obtain ⟨_, heq⟩ := hopened.inside.exists_expr
        cases heq
      · obtain ⟨_, heq⟩ := hin.exists_expr
        cases heq
    have hlt : t.index < s₁.program.stmts.size := by
      rw [hcovered.redirects.stmts_size]
      exact Arena.get?_eq_some_lt hst
    -- Then the statement is written, and those inside it follow.
    obtain ⟨done₂, s₂, hself, hinner⟩ := covers_forM
      (fun u (hu : u ∈ st.children) => ih (by have := (hchildren u hu).2; omega) (hchildren u hu).1)
      (insert (.stmt t) done₁) { s₁ with
        program.stmts := s₁.program.stmts.modify t fun _ => st.redirect r c }
      (hcovered.redirects.writeStmt hst)
    rw [← hredirect, ← hsame] at hself
    rw [holds_stmt hst'] at hrun
    refine ⟨done₂, s₂, substituteStmtStep_eq_ok hst' hrun hlt hself, hinner.redirects,
      (hcovered.subset.trans (Finset.subset_insert _ _)).trans hinner.subset,
      fun w hw z hz => ?_, fun z hz => ?_, ?_⟩
    · rw [List.mem_singleton.1 hw] at hz
      rcases Relation.ReflTransGen.cases_head hz with rfl | ⟨v, ⟨hpart, hne⟩, hz⟩
      · exact hinner.subset (Finset.mem_insert_self _ _)
      · obtain ⟨st₀, hst₀, ⟨e, he, rfl⟩ | ⟨u, hu, rfl⟩⟩ := hasPart_stmt_iff.1 hpart
        · rw [← holds_stmt hst₀] at he
          exact hinner.subset (Finset.mem_insert_of_mem
            (hcovered.opened_slot hs he (fun heq => hne (congrArg Piece.expr heq)) hz))
        · cases hst.symm.trans hst₀
          exact hinner.opened _ (List.mem_map_of_mem hu) z hz
    · rcases hinner.only z hz with hz | ⟨w, hw, hopened⟩ | hin
      · exact (hcovered.only_turn hs hz).imp_right (.imp_left fun hopened =>
          ⟨_, List.mem_singleton_self _, hopened⟩)
      · obtain ⟨u, hu, rfl⟩ := List.mem_map.1 hw
        have hopens : p.Opens r (.stmt t) (.stmt u) :=
          ⟨hasPart_stmt_iff.2 ⟨st, hst, .inr ⟨u, hu, rfl⟩⟩, fun heq => by cases heq⟩
        exact .inr (.inl ⟨_, List.mem_singleton_self _, .head hopens hopened⟩)
      · exact .inr (.inr hin)
    · have hcount := hcovered.count
      have hcount' := hinner.count
      rw [hcovered.hits_turn hs h.ne hfresh] at hcount'
      dsimp only at hcount'
      omega

end Expressions

/-! ### The whole substitution -/

section Scopes

variable {root : StmtId}

/-- An expression beneath the statement or inside what replaces. -/
def InScope (p : Program) (root : StmtId) (c e : ExprId) : Prop :=
  p.Inside (.stmt root) (.expr e) ∨ p.Inside (.expr c) (.expr e)

/-- From an expression to an operand, or to what may come in the place of one. -/
def LeadsTo (p : Program) (r c e o : ExprId) : Prop :=
  p.HasPart (.expr e) (.expr o) ∨ p.HasPart (.expr e) (.expr r) ∧ o = c

theorem InScope.acyclic {e : ExprId} (hroot : p.Acyclic (.stmt root)) (hc : p.Acyclic (.expr c))
    (he : p.InScope root c e) : p.Acyclic (.expr e) :=
  he.elim hroot.inside hc.inside

theorem InScope.leadsTo {e o : ExprId} (he : p.InScope root c e) (ho : p.LeadsTo r c e o) :
    p.InScope root c o := by
  rcases ho with hpart | ⟨_, rfl⟩
  · exact he.imp (·.tail hpart) (·.tail hpart)
  · exact .inr .refl

/-- Going from expression to expression leads to something inside the first one, or past `r` to
    something inside `c`. -/
theorem LeadsTo.inside (hclear : ¬p.Inside (.expr c) (.expr r)) {e o : ExprId}
    (h : Relation.TransGen (p.LeadsTo r c) e o) :
    Relation.TransGen p.HasPart (.expr e) (.expr o) ∨
      p.Inside (.expr e) (.expr r) ∧ p.Inside (.expr c) (.expr o) := by
  induction h with
  | single hstep =>
    rcases hstep with hpart | ⟨hpart, rfl⟩
    · exact .inl (.single hpart)
    · exact .inr ⟨.single hpart, .refl⟩
  | tail _ hstep ih =>
    rcases hstep with hpart | ⟨hpart, rfl⟩
    · exact ih.imp (·.tail hpart) fun hin => ⟨hin.1, hin.2.tail hpart⟩
    · rcases ih with htrans | ⟨_, hin⟩
      · exact .inr ⟨(htrans.tail hpart).to_reflTransGen, .refl⟩
      · exact absurd (hin.tail hpart) hclear

theorem exists_scope (hroot : p.Acyclic (.stmt root)) (hc : p.Acyclic (.expr c))
    (hclear : ¬p.Inside (.expr c) (.expr r)) : ∃ rank, p.Scope r c (p.InScope root c) rank := by
  have hthere : ∀ e, p.InScope root c e → ∃ x, p.exprs.get? e = some x := by
    intro e he
    obtain ⟨ys, hys⟩ := (he.acyclic hroot hc).there _ .refl
    obtain ⟨x, hx, _⟩ := Option.map_eq_some_iff.1 hys
    exact ⟨x, hx⟩
  have hirrefl : ∀ e, p.InScope root c e → ¬Relation.TransGen p.HasPart (.expr e) (.expr e) :=
    fun e he => (he.acyclic hroot hc).irrefl _ .refl
  obtain ⟨rank, hle, hrank⟩ := exists_rank (R := p.LeadsTo r c) (P := p.InScope root c)
    p.exprs.handles.toFinset
    (fun e he => by
      obtain ⟨x, hx⟩ := hthere e he
      exact List.mem_toFinset.2 (Arena.mem_handles.2 (Arena.get?_eq_some_lt hx)))
    (fun e o he ho => he.leadsTo ho)
    (fun e he hcycle => by
      rcases LeadsTo.inside hclear hcycle with hcycle | ⟨hr, hin⟩
      · exact hirrefl e he hcycle
      · exact hclear (hin.trans hr))
  have hsize : p.exprs.handles.toFinset.card = p.exprs.size := by
    rw [List.toFinset_card_of_nodup p.exprs.handles_nodup, Arena.handles, List.length_map,
      List.length_range]
    rfl
  refine ⟨rank, fun heq => hclear (heq ▸ .refl), hclear, hthere, hirrefl, fun e o he ho => ?_,
    fun e he hr => ?_, fun e => hsize ▸ hle e⟩
  · have hleads : p.LeadsTo r c e o := .inl (hasPart_of_mem_holds ho)
    exact ⟨he.leadsTo hleads, hrank e o he hleads⟩
  · have hleads : p.LeadsTo r c e c := .inr ⟨hasPart_of_mem_holds hr, rfl⟩
    exact ⟨he.leadsTo hleads, hrank e c he hleads⟩

/-- Substitution beneath a statement redirects everything that it comes to. -/
theorem exists_replaceExpr (hroot : p.Acyclic (.stmt root)) (hc : p.Acyclic (.expr c))
    (hclear : ¬p.Inside (.expr c) (.expr r)) :
    ∃ done q, p.replaceExpr root r c = .ok (p.hits r done, q) ∧ p.Redirects r c done q ∧
      (∀ y, p.Opened r (.stmt root) y → y ∈ done) ∧
      ∀ y ∈ done, p.Opened r (.stmt root) y ∨ p.Inside (.expr c) y := by
  obtain ⟨rank, hscope⟩ := exists_scope hroot hc hclear
  have hthere : ∀ t, p.Inside (.stmt root) (.stmt t) → ∃ st, p.stmts.get? t = some st := by
    intro t ht
    obtain ⟨ys, hys⟩ := hroot.there _ ht
    obtain ⟨st, hst, _⟩ := Option.map_eq_some_iff.1 hys
    exact ⟨st, hst⟩
  obtain ⟨stmtRank, hle, hstmtRank⟩ := exists_rank
    (R := fun t u => p.HasPart (.stmt t) (.stmt u)) (P := fun t => p.Inside (.stmt root) (.stmt t))
    p.stmts.handles.toFinset
    (fun t ht => by
      obtain ⟨st, hst⟩ := hthere t ht
      exact List.mem_toFinset.2 (Arena.mem_handles.2 (Arena.get?_eq_some_lt hst)))
    (fun t u ht hu => ht.tail hu)
    (fun t ht hcycle => hroot.irrefl _ ht (hcycle.lift Piece.stmt fun _ _ h => h))
  have hdepth : stmtRank root < p.stmtDepth := by
    refine Nat.lt_succ_of_le ((hle root).trans (Nat.le_of_eq ?_))
    rw [List.toFinset_card_of_nodup p.stmts.handles_nodup, Arena.handles, List.length_map,
      List.length_range]
    rfl
  have hinside : ∀ t, p.Inside (.stmt root) (.stmt t) → ∃ st, p.stmts.get? t = some st ∧
      (∀ e ∈ st.exprs, p.InScope root c e ∧ p.InScope root c c) ∧
      ∀ u ∈ st.children, p.Inside (.stmt root) (.stmt u) ∧ stmtRank u < stmtRank t := by
    intro t ht
    obtain ⟨st, hst⟩ := hthere t ht
    refine ⟨st, hst, fun e he => ⟨.inl (ht.expr hst he), .inr .refl⟩,
      fun u hu => ⟨ht.child hst hu, hstmtRank t u ht ?_⟩⟩
    exact hasPart_stmt_iff.2 ⟨st, hst, .inr ⟨u, hu, rfl⟩⟩
  have hstart : p.Inside (.stmt root) (.stmt root) := .refl
  obtain ⟨done, s, hrun, hcovered⟩ :=
    hscope.covers_stmt hinside hdepth hstart ∅ { program := p } (.start p r c)
  have hcount : s.count = p.hits r done := by
    have hcount := hcovered.count
    simpa [hits] using hcount
  refine ⟨done, s.program, ?_, hcovered.redirects,
    fun y hy => hcovered.opened _ (List.mem_singleton_self _) y hy, fun y hy => ?_⟩
  · rw [← hcount]
    exact Run.bind_eq_ok.2 ⟨_, hrun, rfl⟩
  · rcases hcovered.only y hy with hy | ⟨x, hx, hopened⟩ | hin
    · exact absurd hy (Finset.notMem_empty _)
    · rw [List.mem_singleton.1 hx] at hopened
      exact .inl hopened
    · exact .inr hin

end Scopes

/-! ### Slots that were rewritten -/

section Slots

variable {root : StmtId}

/-- The slot of a piece that holds an expression, by its place. -/
def slot : Piece → Nat → Slot
  | .stmt s, i => .own s i
  | .expr e, i => .operand e i

theorem slot_inj (x : Piece) : Function.Injective (slot x) := by
  intro i j h
  cases x <;> cases h <;> rfl

theorem owner_slot (x : Piece) (i : Nat) : (slot x i).owner = some x := by
  cases x <;> rfl

theorem held_slot (x : Piece) (i : Nat) : p.held (slot x i) = ((p.holds x)[i]?).map .expr := by
  cases x with
  | stmt s => cases hs : p.stmts.get? s <;> simp [slot, held, holds, hs]
  | expr e => cases he : p.exprs.get? e <;> simp [slot, held, holds, he]

theorem exists_slot_of_held {a : Slot} {x : Piece} {e : ExprId} (ha : a.owner = some x)
    (h : p.held a = some (.expr e)) : ∃ i, a = slot x i := by
  cases a with
  | body m => cases ha
  | child s i =>
    obtain ⟨_, _, h⟩ := Option.map_eq_some_iff.1 h
    cases h
  | own s i | operand e i =>
    cases ha
    exact ⟨i, rfl⟩

/-- The slots of some pieces that hold `r`. -/
def slotsHolding (p : Program) (r : ExprId) (done : Finset Piece) : Finset Slot :=
  done.biUnion fun x =>
    (Finset.univ.filter fun i : Fin (p.holds x).length => (p.holds x).get i = r).image
      fun i : Fin (p.holds x).length => slot x i.1

theorem mem_slotsHolding {a : Slot} : a ∈ p.slotsHolding r done ↔
    ∃ x ∈ done, a.owner = some x ∧ p.held a = some (.expr r) := by
  simp only [slotsHolding, Finset.mem_biUnion, Finset.mem_image, Finset.mem_filter, Finset.mem_univ,
    true_and]
  constructor
  · rintro ⟨x, hx, i, hi, rfl⟩
    refine ⟨x, hx, owner_slot x i, ?_⟩
    rw [held_slot, List.getElem?_eq_getElem i.2]
    exact congrArg (some ∘ Piece.expr) hi
  · rintro ⟨x, hx, howner, hheld⟩
    obtain ⟨i, rfl⟩ := exists_slot_of_held howner hheld
    rw [held_slot] at hheld
    obtain ⟨e, hi, he⟩ := Option.map_eq_some_iff.1 hheld
    obtain ⟨hlt, hi⟩ := List.getElem?_eq_some_iff.1 hi
    exact ⟨x, hx, ⟨i, hlt⟩, hi.trans (Piece.expr.inj he), rfl⟩

theorem card_slotsHolding : (p.slotsHolding r done).card = p.hits r done := by
  rw [slotsHolding, Finset.card_biUnion, hits]
  · refine Finset.sum_congr rfl fun x _ => ?_
    rw [Finset.card_image_of_injective _ fun i j h => Fin.ext (slot_inj x h)]
    exact Fin.card_filter_univ_eq_vector_get_eq_count r ⟨p.holds x, rfl⟩
  · intro x _ y _ hne
    refine Finset.disjoint_left.2 fun a hx hy => ?_
    obtain ⟨i, _, rfl⟩ := Finset.mem_image.1 hx
    obtain ⟨j, _, hj⟩ := Finset.mem_image.1 hy
    have howner := congrArg Slot.owner hj
    rw [owner_slot, owner_slot] at howner
    exact hne (Option.some.inj howner).symm

/-- A program that differs from another one in what some of its slots hold. -/
structure Refilled (p q : Program) (slots : Finset Slot) (c : ExprId) : Prop where
  vars : q.vars = p.vars
  methods : q.methods = p.methods
  stmts_size : q.stmts.size = p.stmts.size
  exprs_size : q.exprs.size = p.exprs.size
  stmt : ∀ s st, p.stmts.get? s = some st → ∃ es, q.stmts.get? s = some (st.withExprs es)
  expr : ∀ e x, p.exprs.get? e = some x → ∃ os, q.exprs.get? e = some (x.withOperands os)
  held : ∀ a, q.held a = if a ∈ slots then some (.expr c) else p.held a

theorem Redirects.held_slot_eq (h : p.Redirects r c done q) (x : Piece) (i : Nat) :
    q.held (slot x i) =
      if slot x i ∈ p.slotsHolding r done then some (.expr c) else p.held (slot x i) := by
  have hmem : slot x i ∈ p.slotsHolding r done ↔ x ∈ done ∧ (p.holds x)[i]? = some r := by
    rw [mem_slotsHolding]
    simp [owner_slot, held_slot]
  rw [held_slot, held_slot, h.holds_eq]
  by_cases hx : x ∈ done
  · rw [if_pos hx, List.getElem?_map]
    cases hi : (p.holds x)[i]? with
    | none => simp [hmem, hi]
    | some o =>
      by_cases ho : o = r
      · rw [if_pos (hmem.2 ⟨hx, ho ▸ hi⟩)]
        simp [redirect, ho]
      · rw [if_neg fun hslot => ho (Option.some.inj (hi.symm.trans (hmem.1 hslot).2))]
        simp [redirect, ho]
  · rw [if_neg hx, if_neg fun hslot => hx (hmem.1 hslot).1]

theorem Redirects.refilled (h : p.Redirects r c done q) :
    p.Refilled q (p.slotsHolding r done) c where
  vars := h.vars
  methods := h.methods
  stmts_size := h.stmts_size
  exprs_size := h.exprs_size
  stmt s st hst := by
    rw [h.stmt, hst]
    split
    · exact ⟨_, rfl⟩
    · exact ⟨_, congrArg some st.withExprs_exprs.symm⟩
  expr e x hx := by
    rw [h.expr, hx]
    split
    · exact ⟨_, rfl⟩
    · exact ⟨_, congrArg some x.withOperands_operands.symm⟩
  held a := by
    cases a with
    | body m =>
      rw [if_neg fun hmem => by simp [mem_slotsHolding, Slot.owner] at hmem, held, held, h.methods]
    | child s i =>
      have hnot : Slot.child s i ∉ p.slotsHolding r done := by
        intro hmem
        obtain ⟨_, _, _, hheld⟩ := mem_slotsHolding.1 hmem
        obtain ⟨_, _, heq⟩ := Option.map_eq_some_iff.1 hheld
        cases heq
      rw [if_neg hnot, held, held, h.stmt]
      cases p.stmts.get? s <;> split <;> simp
    | own s i => exact h.held_slot_eq (.stmt s) i
    | operand e i => exact h.held_slot_eq (.expr e) i

/-- Substitution is exact wherever nothing beneath the statement or inside `c` is inside itself, and
    `r` is not inside `c`, whatever is shared: the slots that it comes to and that hold `r` hold `c`
    afterwards, nothing else is changed, and their number is the one it gives. -/
theorem replaceExpr_exact (hroot : p.Acyclic (.stmt root)) (hc : p.Acyclic (.expr c))
    (hclear : ¬p.Inside (.expr c) (.expr r)) :
    ∃ slots q, p.replaceExpr root r c = .ok (slots.card, q) ∧
      (∀ a, a ∈ slots ↔ p.Exposed root r a ∧ p.held a = some (.expr r)) ∧
      p.Refilled q slots c := by
  obtain ⟨done, q, hrun, hredirects, hopened, honly⟩ := exists_replaceExpr hroot hc hclear
  refine ⟨p.slotsHolding r done, q, by rw [card_slotsHolding, hrun], fun a => ?_,
    hredirects.refilled⟩
  rw [mem_slotsHolding]
  constructor
  · rintro ⟨x, hx, howner, hheld⟩
    refine ⟨⟨x, howner, (honly x hx).resolve_right fun hin => ?_⟩, hheld⟩
    -- No slot inside `c` holds `r`.
    exact hclear (hin.tail (mem_parts_of_held howner hheld))
  · rintro ⟨⟨x, howner, hx⟩, hheld⟩
    exact ⟨x, hopened x hx, howner, hheld⟩

end Slots

end Program

/-- A sum of a variable with itself that is shared by both sides of a product and by a statement
    that returns it; and a block that holds the statement with the product twice. -/
def sampleDoubled : Program where
  vars := ⟨#[{ name := "x", type := .int, kind := .ofMethod },
    { name := "y", type := .int, kind := .ofMethod }]⟩
  exprs := ⟨#[.var ⟨0⟩, .binary .add ⟨0⟩ ⟨0⟩, .binary .mul ⟨1⟩ ⟨1⟩, .var ⟨1⟩, .unary .neg ⟨3⟩]⟩
  stmts := ⟨#[.expr ⟨2⟩, .ret (some ⟨1⟩), .block [⟨0⟩, ⟨1⟩, ⟨0⟩]]⟩

/-- Two slots hold the variable. Each is counted once, though five ways lead to the sum. -/
theorem Program.replaceExpr_exact_doubled :
    sampleDoubled.Acyclic (.stmt ⟨2⟩) ∧ sampleDoubled.Acyclic (.expr ⟨4⟩) ∧
    ¬sampleDoubled.Inside (.expr ⟨4⟩) (.expr ⟨0⟩) ∧
    ∃ slots q, sampleDoubled.replaceExpr ⟨2⟩ ⟨0⟩ ⟨4⟩ = .ok (slots.card, q) ∧ slots.card = 2 ∧
      (∀ a, a ∈ slots ↔ sampleDoubled.Exposed ⟨2⟩ ⟨0⟩ a ∧ sampleDoubled.held a = some (.expr ⟨0⟩)) ∧
      sampleDoubled.Refilled q slots ⟨4⟩ := by
  have hroot : sampleDoubled.Acyclic (.stmt ⟨2⟩) :=
    (acyclic_of_check (show sampleDoubled.checksAcyclic 40 (.stmt ⟨2⟩) = true by decide)).1
  have hc : sampleDoubled.Acyclic (.expr ⟨4⟩) :=
    (acyclic_of_check (show sampleDoubled.checksAcyclic 5 (.expr ⟨4⟩) = true by decide)).1
  have hclear : ¬sampleDoubled.Inside (.expr ⟨4⟩) (.expr ⟨0⟩) := by
    intro hin
    have hwalk : Walk sampleDoubled [.expr ⟨4⟩] [.expr ⟨4⟩, .expr ⟨3⟩] :=
      walk_of_eq_some (show sampleDoubled.walk 5 [.expr ⟨4⟩] = _ by decide)
    exact absurd (inside_mem_of_walk hwalk List.mem_cons_self hin) (by decide)
  obtain ⟨slots, q, hrun, hslots, hrefilled⟩ := replaceExpr_exact hroot hc hclear
  have hcount : (sampleDoubled.replaceExpr ⟨2⟩ ⟨0⟩ ⟨4⟩).map Prod.fst = .ok 2 := by decide +kernel
  rw [hrun] at hcount
  exact ⟨hroot, hc, hclear, slots, q, hrun, Except.ok.inj hcount, hslots, hrefilled⟩

end Dataflow
