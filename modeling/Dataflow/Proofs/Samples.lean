import Dataflow.Proofs.Acyclic
import Dataflow.Proofs.Endurance
import Dataflow.Proofs.Optimization
import Dataflow.Sample

/-!
# Samples are well made

Whatever choices a sample is made by, it is a program that can be lowered, inlined and evaluated. It
is a tree program, all of whose pieces are in its body; it assigns to variables only; its graph can
be made; and only a lack of fuel keeps a run from returning a value.

While a sample is made, each new piece takes up some of the pieces that nothing holds yet. So at any
time every piece is held by one slot, or it is one of the loose ones. In the end the body is the
only loose piece, and its method holds it.

* `Plan.Always`, `Sample.Ensures`: what holds whatever is chosen;
* `Program.AllHeld`: every piece is held once, but for some loose ones;
* `Sample.Unfinished`: what holds while a sample is made;
* `Sample.Finished`: what holds in the end;
* `Sample.wellMade`: samples are well made.
-/

namespace Dataflow

/-! ### What holds whatever is chosen -/

namespace Plan

variable {α β : Type} {P : α → Prop} {Q : β → Prop}

/-- A plan makes something of the kind `P`, whatever is chosen. -/
def Always (P : α → Prop) : Plan α → Prop
  | done a => P a
  | ask _ next => ∀ i, (next i).Always P

theorem Always.imp {R : α → Prop} {x : Plan α} (h : x.Always P) (hP : ∀ a, P a → R a) :
    x.Always R := by
  induction x with
  | done a => exact hP a h
  | ask most next ih => exact fun i => ih i (h i)

theorem always_bind {x : Plan α} {f : α → Plan β} (h : x.Always fun a => (f a).Always Q) :
    (x >>= f).Always Q := by
  induction x with
  | done a => exact h
  | ask most next ih => exact fun i => ih i (h i)

/-- A source that may have no number to choose, and that keeps a state. -/
theorem Always.of_run {σ ε : Type} {source : (most : Nat) → StateT σ (Except ε) (Fin (most + 1))}
    {x : Plan α} (h : x.Always P) {s s' : σ} {a : α} (hrun : (x.run source).run s = .ok (a, s')) :
    P a := by
  induction x generalizing s with
  | done b =>
    cases hrun
    exact h
  | ask most next ih =>
    change ((source most).run s >>= fun r => ((next r.1).run source).run r.2) = _ at hrun
    cases hsource : (source most).run s with
    | error e =>
      rw [hsource] at hrun
      cases hrun
    | ok r =>
      rw [hsource] at hrun
      exact ih r.1 (h r.1) hrun

/-- A source that always has a number to choose. -/
theorem Always.run {σ : Type} {source : (most : Nat) → StateM σ (Fin (most + 1))} {x : Plan α}
    (h : x.Always P) (s : σ) : P ((x.run source).run s).1 := by
  induction x generalizing s with
  | done a => exact h
  | ask most next ih => exact ih _ (h _) _

end Plan

/-! ### Pieces that nothing holds yet -/

theorem Arena.handles_modify {name : String} {α : Type} (a : Arena name α) (h : Handle name) (f : α → α) :
    (a.modify h f).handles = a.handles := by
  simp [handles, modify]

namespace Program

variable {p q : Program} {loose loose' : List Piece}

/-- Every piece is held by one slot of another piece, but for the loose ones. -/
def AllHeld (p : Program) (loose : List Piece) : Prop :=
  (loose ++ p.pieces.flatMap (Walk.partsOf p)).Perm p.pieces

theorem AllHeld.perm (h : p.AllHeld loose) (hperm : loose.Perm loose') : p.AllHeld loose' :=
  (hperm.symm.append_right _).trans h

theorem pieces_nodup (p : Program) : p.pieces.Nodup := by
  refine List.nodup_append.2 ⟨p.stmts.handles_nodup.map fun _ _ h => Piece.stmt.inj h,
    p.exprs.handles_nodup.map fun _ _ h => Piece.expr.inj h, ?_⟩
  rintro x hx y hy rfl
  obtain ⟨_, _, rfl⟩ := List.mem_map.1 hx
  obtain ⟨_, _, hy⟩ := List.mem_map.1 hy
  cases hy

theorem expr_mem_pieces {e : ExprId} : Piece.expr e ∈ p.pieces ↔ e.index < p.exprs.size := by
  simp [pieces, Arena.mem_handles]

theorem stmt_mem_pieces {s : StmtId} : Piece.stmt s ∈ p.pieces ↔ s.index < p.stmts.size := by
  simp [pieces, Arena.mem_handles]

/-- A new piece takes up loose ones, and is loose itself. -/
theorem AllHeld.add {x : Piece} {rest : List Piece} (h : p.AllHeld (Walk.partsOf q x ++ rest))
    (hpieces : q.pieces.Perm (x :: p.pieces))
    (hsame : ∀ y ∈ p.pieces, Walk.partsOf q y = Walk.partsOf p y) : q.AllHeld (x :: rest) := by
  have hflat : (q.pieces.flatMap (Walk.partsOf q)).Perm
      (Walk.partsOf q x ++ p.pieces.flatMap (Walk.partsOf p)) := by
    refine (hpieces.flatMap_right _).trans (.of_eq ?_)
    rw [List.flatMap_cons, List.flatMap_congr hsame]
  calc ((x :: rest) ++ q.pieces.flatMap (Walk.partsOf q)).Perm
        (x :: (rest ++ (Walk.partsOf q x ++ p.pieces.flatMap (Walk.partsOf p)))) := hflat.append_left _
    List.Perm _ (x :: (Walk.partsOf q x ++ rest ++ p.pieces.flatMap (Walk.partsOf p))) := by
        rw [← List.append_assoc]
        exact (List.perm_append_comm.append_right _).cons x
    List.Perm _ (x :: p.pieces) := h.cons x
    List.Perm _ q.pieces := hpieces.symm

theorem pieces_addExpr (p : Program) (x : Expr) :
    (p.addExpr x).pieces.Perm (.expr p.exprs.next :: p.pieces) := by
  rw [pieces, addExpr, Arena.handles_push, List.map_append, ← List.append_assoc]
  exact List.perm_append_singleton _ _

theorem pieces_addStmt (p : Program) (st : Stmt) :
    (p.addStmt st).pieces.Perm (.stmt p.stmts.next :: p.pieces) := by
  rw [pieces, addStmt, Arena.handles_push, List.map_append, List.append_assoc]
  exact List.perm_middle

/-- An expression whose operands are loose. -/
theorem AllHeld.addExpr {x : Expr} {rest : List Piece}
    (h : p.AllHeld (x.operands.map .expr ++ rest)) :
    (p.addExpr x).AllHeld (.expr p.exprs.next :: rest) := by
  refine AllHeld.add ?_ (p.pieces_addExpr x) fun y hy => ?_
  · simpa [Walk.partsOf, parts, Program.addExpr] using h
  · cases y with
    | stmt s => rfl
    | expr e =>
      simp [Walk.partsOf, parts, Program.addExpr, Arena.get?_push_of_lt x (expr_mem_pieces.1 hy)]

/-- A statement whose parts are loose. -/
theorem AllHeld.addStmt {st : Stmt} {rest : List Piece}
    (h : p.AllHeld (st.exprs.map .expr ++ st.children.map .stmt ++ rest)) :
    (p.addStmt st).AllHeld (.stmt p.stmts.next :: rest) := by
  refine AllHeld.add ?_ (p.pieces_addStmt st) fun y hy => ?_
  · simpa [Walk.partsOf, parts, Program.addStmt] using h
  · cases y with
    | stmt s =>
      simp [Walk.partsOf, parts, Program.addStmt, Arena.get?_push_of_lt st (stmt_mem_pieces.1 hy)]
    | expr e => rfl

/-- A piece takes up one more that was loose. -/
theorem AllHeld.extend {x y : Piece} {rest : List Piece} (h : p.AllHeld (y :: rest))
    (hpieces : q.pieces = p.pieces) (hx : x ∈ p.pieces)
    (hparts : Walk.partsOf q x = Walk.partsOf p x ++ [y])
    (hsame : ∀ z ∈ p.pieces, z ≠ x → Walk.partsOf q z = Walk.partsOf p z) : q.AllHeld rest := by
  obtain ⟨before, after, hsplit⟩ := List.append_of_mem hx
  have hnodup := p.pieces_nodup
  rw [hsplit] at hnodup hsame
  have hnot : x ∉ before ++ after := (List.nodup_middle.1 hnodup).notMem
  rw [AllHeld, hpieces, hsplit]
  rw [AllHeld, hsplit] at h
  refine List.Perm.trans ?_ h
  have hbefore : before.flatMap (Walk.partsOf q) = before.flatMap (Walk.partsOf p) :=
    List.flatMap_congr fun z hz => hsame z (List.mem_append_left _ hz)
      fun heq => hnot (heq ▸ List.mem_append_left _ hz)
  have hafter : after.flatMap (Walk.partsOf q) = after.flatMap (Walk.partsOf p) :=
    List.flatMap_congr fun z hz => hsame z (List.mem_append_right _ (List.mem_cons_of_mem _ hz))
      fun heq => hnot (heq ▸ List.mem_append_right _ hz)
  rw [List.flatMap_append, List.flatMap_cons, hbefore, hafter, hparts, List.flatMap_append,
    List.flatMap_cons]
  have hmove : (rest ++ before.flatMap (Walk.partsOf p) ++ Walk.partsOf p x ++
      y :: after.flatMap (Walk.partsOf p)).Perm _ := List.perm_middle
  simpa only [List.append_assoc, List.cons_append, List.nil_append] using hmove

end Program

/-! ### While a sample is made -/

namespace Sample

variable {α β : Type} {p q : Program} {loose rest : List Piece} {known : List ExprId} {x : Expr}
  {st : Stmt}

/-- A part of making a sample which, begun with the program `p`, gives a value and leaves a program as
    `Q` says, whatever is chosen. -/
def Ensures (x : Make α) (p : Program) (Q : α → Program → Prop) : Prop :=
  (x.run p).Always fun r => Q r.1 r.2

section Ensures

variable {Q : α → Program → Prop}

theorem ensures_pure {a : α} (h : Q a p) : Ensures (pure a) p Q := h

theorem Ensures.imp {x : Make α} {R : α → Program → Prop} (h : Ensures x p Q)
    (hQ : ∀ a q, Q a q → R a q) : Ensures x p R := Plan.Always.imp h fun r => hQ r.1 r.2

theorem ensures_bind {x : Make β} {f : β → Make α} (h : Ensures x p fun b q => Ensures (f b) q Q) :
    Ensures (x >>= f) p Q := Plan.always_bind h

theorem ensures_upTo {most : Nat} {Q : Nat → Program → Prop} (h : ∀ i ≤ most, Q i p) :
    Ensures (upTo most) p Q := fun i => h i.val (Nat.le_of_lt_succ i.isLt)

theorem ensures_choose {first : α} {others : List α} (h : ∀ a ∈ first :: others, Q a p) :
    Ensures (choose first others) p Q := fun _ => h _ (List.get_mem _ _)

theorem ensures_orNone {make : Make α} {Q : Option α → Program → Prop}
    (hsome : Ensures make p fun a q => Q (some a) q) (hnone : Q none p) :
    Ensures (orNone make) p Q := by
  refine ensures_bind (ensures_upTo fun i _ => ?_)
  split
  · exact ensures_bind (hsome.imp fun a q hq => ensures_pure hq)
  · exact ensures_pure hnone

theorem ensures_modify {f : Program → Program} {Q : Unit → Program → Prop} (h : Q () (f p)) :
    Ensures (modify f) p Q := h

theorem ensures_addExpr {Q : ExprId → Program → Prop} (h : Q p.exprs.next (p.addExpr x)) :
    Ensures (addExpr x) p Q := h

theorem ensures_addStmt {Q : StmtId → Program → Prop} (h : Q p.stmts.next (p.addStmt st)) :
    Ensures (addStmt st) p Q := h

end Ensures

/-- A program that a sample is being made of. Nothing holds the loose pieces yet, and the expressions
    `known` name variables. -/
structure Unfinished (p : Program) (loose : List Piece) (known : List ExprId) : Prop where
  vars : p.vars = base.vars
  methods : p.methods = base.methods
  exprs : ∀ e x, p.exprs.get? e = some x → p.Evaluable x
  stmts : ∀ s st, p.stmts.get? s = some st → p.Plain s.index st
  held : p.AllHeld loose
  known : ∀ t ∈ known, ∃ v, p.exprs.get? t = some (.var v)

theorem unfinished_base : Unfinished base [] [] where
  vars := rfl
  methods := rfl
  exprs e x hx := by cases hx
  stmts s st hst := by cases hst
  held := .nil
  known t ht := by cases ht

namespace Unfinished

theorem perm (h : Unfinished p loose known) (hperm : loose.Perm rest) : Unfinished p rest known where
  __ := h
  held := h.held.perm hperm

theorem forget {t : ExprId} (h : Unfinished p loose (t :: known)) : Unfinished p loose known where
  __ := h
  known u hu := h.known u (List.mem_cons_of_mem _ hu)

theorem expr_lt (h : Unfinished p loose known) {e : ExprId} (he : .expr e ∈ loose) :
    e.index < p.exprs.size :=
  Program.expr_mem_pieces.1 (h.held.mem_iff.1 (List.mem_append_left _ he))

theorem stmt_lt (h : Unfinished p loose known) {s : StmtId} (hs : .stmt s ∈ loose) :
    s.index < p.stmts.size :=
  Program.stmt_mem_pieces.1 (h.held.mem_iff.1 (List.mem_append_left _ hs))

theorem addExpr (h : Unfinished p (x.operands.map .expr ++ rest) known) (hx : p.Evaluable x) :
    Unfinished (p.addExpr x) (.expr p.exprs.next :: rest) known := by
  have hold : ∀ e y, p.exprs.get? e = some y → (p.addExpr x).exprs.get? e = some y := fun e y hy =>
    (Arena.get?_push_of_lt x (Arena.get?_eq_some_lt hy)).trans hy
  refine ⟨h.vars, h.methods, fun e y hy => ?_, fun s st hs => ?_, h.held.addExpr, fun t ht => ?_⟩
  · have hy' : p.Evaluable y := by
      rw [Program.addExpr, Arena.get?_push] at hy
      split at hy
      · cases hy
        exact hx
      · exact h.exprs e y hy
    exact hy'.mono (Nat.le_refl _) (Nat.le_refl _) hold
  · refine (h.stmts s st hs).mono (Nat.le_refl _) (Nat.le_refl _) ?_
    rw [Program.addExpr, Arena.size_push]
    exact Nat.le_succ _
  · obtain ⟨v, hv⟩ := h.known t ht
    exact ⟨v, hold t _ hv⟩

theorem addStmt (h : Unfinished p (st.exprs.map .expr ++ st.children.map .stmt ++ rest) known)
    (hret : ∀ value, st ≠ .ret value) (hvar : ∀ v init, st = .declare v init → v.index < p.vars.size) :
    Unfinished (p.addStmt st) (.stmt p.stmts.next :: rest) known where
  vars := h.vars
  methods := h.methods
  exprs e x hx := (h.exprs e x hx).mono (Nat.le_refl _) (Nat.le_refl _) fun _ _ hy => hy
  stmts s st' hs := by
    rw [Program.addStmt, Arena.get?_push] at hs
    split at hs
    · next heq =>
      cases hs
      subst heq
      refine ⟨hret, fun t ht => h.stmt_lt ?_, fun e he => h.expr_lt ?_, hvar⟩
      · exact List.mem_append_left _ (List.mem_append_right _ (List.mem_map_of_mem ht))
      · exact List.mem_append_left _ (List.mem_append_left _ (List.mem_map_of_mem he))
    · exact (h.stmts s st' hs).mono (Nat.le_refl _) (Nat.le_refl _) (Nat.le_refl _)
  held := h.held.addStmt
  known := h.known

end Unfinished

/-! ### Expressions of a sample -/

section Exprs

variable (h : Unfinished p loose known)
include h

theorem ensures_var {Q : VarId → Program → Prop} (hQ : ∀ v : VarId, v.index < p.vars.size → Q v p) :
    Ensures var p Q := by
  refine ensures_choose fun v hv => hQ v ?_
  rw [h.vars]
  simp only [List.mem_cons, List.not_mem_nil, or_false] at hv
  rcases hv with rfl | rfl | rfl | rfl | rfl <;> decide

/-- A variable may be assigned to. -/
theorem ensures_varExpr {Q : ExprId → Program → Prop}
    (hQ : ∀ v, Unfinished (p.addExpr (.var v)) (.expr p.exprs.next :: loose) (p.exprs.next :: known) →
      Q p.exprs.next (p.addExpr (.var v))) : Ensures varExpr p Q := by
  refine ensures_bind (ensures_var h fun v hv => ensures_addExpr (hQ v ?_))
  have hvar : p.Evaluable (.var v) := by
    constructor <;> simp [Expr.evaluated, Expr.operands, Expr.namedVar, Expr.targets, hv]
  have hadd : Unfinished (p.addExpr (.var v)) (.expr p.exprs.next :: loose) known := h.addExpr hvar
  refine { hadd with known := fun t ht => ?_ }
  rcases List.mem_cons.1 ht with rfl | ht
  · exact ⟨v, Arena.get?_push_next _ _⟩
  · exact hadd.known t ht

theorem ensures_leaf (choice : Nat) : Ensures (leaf choice) p fun e q =>
    Unfinished q (.expr e :: loose) known := by
  rw [leaf]
  split
  · refine ensures_bind (ensures_upTo fun i _ => ensures_addExpr (Unfinished.addExpr h ?_))
    constructor <;> simp [Expr.evaluated, Expr.operands, Expr.namedVar, Expr.targets]
  · exact ensures_varExpr h fun _ hq => hq.forget

end Exprs

/-- The operations that samples have always give a value. -/
theorem isSome_eval {op : BinaryOp} (hop : op ∈ [BinaryOp.add, .sub, .mul, .lt]) (a b : Int64) :
    (op.eval a b).isSome := by
  simp only [List.mem_cons, List.not_mem_nil, or_false] at hop
  rcases hop with rfl | rfl | rfl | rfl <;> rfl

theorem evaluable_call {m : MethodId} {args : List ExprId} (hm : m.index < p.methods.size)
    (hargs : ∀ a ∈ args, a.index < p.exprs.size) : p.Evaluable (.call m none args) where
  evaluated := rfl
  operands := hargs
  named v hv := by cases hv
  callee _ _ _ heq := by
    cases heq
    exact hm
  targets t ht := by cases ht
  binary _ _ _ heq := by cases heq
  compound _ _ _ heq := by cases heq

theorem ensures_expr (level : Nat) (h : Unfinished p loose known) :
    Ensures (expr level) p fun e q => Unfinished q (.expr e :: loose) known := by
  induction level generalizing p loose with
  | zero => exact ensures_bind (ensures_upTo fun choice _ => ensures_leaf h choice)
  | succ level ih =>
    refine ensures_bind (ensures_upTo fun choice _ => ?_)
    split
    case h_1 => exact ensures_leaf h 0
    case h_2 => exact ensures_leaf h 1
    case h_3 | h_4 =>
      refine ensures_bind (ensures_choose fun op hop => ensures_bind ((ih h).imp fun lhs q hq =>
        ensures_bind ((ih hq).imp fun rhs r hr => ensures_addExpr (Unfinished.addExpr ?_ ?_))))
      · exact hr.perm (.swap ..)
      · constructor <;> simp [Expr.evaluated, Expr.operands, Expr.namedVar, Expr.targets,
          hr.expr_lt, isSome_eval hop]
    case h_5 =>
      refine ensures_bind ((ih h).imp fun arg q hq => ensures_addExpr (Unfinished.addExpr hq ?_))
      refine evaluable_call ?_ (by simp [hq.expr_lt])
      rw [hq.methods]
      decide
    case h_6 =>
      refine ensures_addExpr (Unfinished.addExpr h (evaluable_call ?_ (by simp)))
      rw [h.methods]
      decide

/-! ### Statements of a sample -/

theorem ensures_simpleStmt (level choice : Nat) (h : Unfinished p loose known) :
    Ensures (simpleStmt level choice) p fun s q => Unfinished q (.stmt s :: loose) known := by
  unfold simpleStmt
  split
  · refine ensures_bind (ensures_var h fun v hv => ensures_bind ((ensures_expr level h).imp
      fun value q hq => ensures_addStmt (Unfinished.addStmt hq (by simp) ?_)))
    rintro _ _ ⟨⟩
    rw [hq.vars, ← h.vars]
    exact hv
  · refine ensures_bind (ensures_varExpr h fun _ hq => ensures_bind ((ensures_expr level hq).imp
      fun value r hr => ensures_bind (ensures_addExpr (ensures_addStmt ?_))))
    have hassign : r.Evaluable (.assign p.exprs.next value) := by
      obtain ⟨v, hv⟩ := hr.known _ List.mem_cons_self
      constructor <;> simp [Expr.evaluated, Expr.operands, Expr.namedVar, Expr.targets, hr.expr_lt, hv]
    have hadd : Unfinished (r.addExpr (.assign p.exprs.next value)) (.expr r.exprs.next :: loose)
      (p.exprs.next :: known) := Unfinished.addExpr (hr.perm (.swap ..)) hassign
    exact Unfinished.addStmt hadd.forget (by simp) (by simp)
  · refine ensures_bind (ensures_varExpr h fun _ hq => ensures_bind (ensures_addExpr
      (ensures_addStmt (Unfinished.addStmt (Unfinished.addExpr hq ?_).forget (by simp) (by simp)))))
    obtain ⟨v, hv⟩ := hq.known _ List.mem_cons_self
    constructor <;> simp [Expr.evaluated, Expr.operands, Expr.namedVar, Expr.targets, hq.expr_lt, hv]

section Blocks

variable {make : Make StmtId} (hmake : ∀ {p loose}, Unfinished p loose known →
  Ensures make p fun s q => Unfinished q (.stmt s :: loose) known)
include hmake

theorem ensures_rowOf (count : Nat) (h : Unfinished p loose known) :
    Ensures (rowOf make count) p fun ss q => Unfinished q (ss.map .stmt ++ loose) known := by
  induction count generalizing p loose with
  | zero => exact ensures_pure h
  | succ count ih =>
    exact ensures_bind ((hmake h).imp fun s q hq => ensures_bind ((ih hq).imp fun ss r hr =>
      ensures_pure (hr.perm List.perm_middle)))

theorem ensures_blockOf (h : Unfinished p loose known) : Ensures (blockOf make) p fun s q =>
    Unfinished q (.stmt s :: loose) known ∧
      q.stmts.size = s.index + 1 ∧ ∃ ss, q.stmts.get? s = some (.block ss) := by
  refine ensures_bind (ensures_upTo fun count _ => ensures_bind ((ensures_rowOf hmake count h).imp
    fun ss q hq => ensures_addStmt ⟨Unfinished.addStmt hq (by simp) (by simp), ?_, ss, ?_⟩))
  · exact Arena.size_push _ _
  · exact Arena.get?_push_next _ _

end Blocks

theorem ensures_stmt (level : Nat) (h : Unfinished p loose known) :
    Ensures (stmt level) p fun s q => Unfinished q (.stmt s :: loose) known := by
  induction level generalizing p loose with
  | zero => exact ensures_bind (ensures_upTo fun choice _ => ensures_simpleStmt 0 choice h)
  | succ level ih =>
    have hblock {p loose} (h : Unfinished p loose known) := ensures_blockOf (fun h => ih h) h
    refine ensures_bind (ensures_upTo fun choice _ => ?_)
    split
    · refine ensures_bind ((ensures_expr (level + 1) h).imp fun condition q hq => ensures_bind
        ((hblock hq).imp fun thenStmt r hr => ensures_bind (ensures_orNone
          ((hblock hr.1).imp fun elseStmt r' hr' => ensures_addStmt ?_) (ensures_addStmt ?_))))
      · refine Unfinished.addStmt (hr'.1.perm ?_) (by simp) (by simp)
        exact (List.reverse_perm [.expr condition, .stmt thenStmt, .stmt elseStmt]).append_right loose
      · exact Unfinished.addStmt (hr.1.perm (.swap ..)) (by simp) (by simp)
    · refine ensures_bind ((ensures_expr (level + 1) h).imp fun condition q hq => ensures_bind
        ((hblock hq).imp fun b r hr => ensures_addStmt (Unfinished.addStmt (hr.1.perm ?_) (by simp)
          (by simp))))
      exact .swap ..
    · exact ensures_simpleStmt (level + 1) _ h

/-! ### In the end -/

/-- A finished sample: the body is the last statement but one, and the return at its end is the last
    one. All other statements are plain. -/
structure Finished (p : Program) (body : StmtId) : Prop where
  vars : p.vars = base.vars
  methods : p.methods = base.methods.modify entry fun m => { m with body := some body }
  exprs : ∀ e x, p.exprs.get? e = some x → p.Evaluable x
  size : p.stmts.size = body.index + 2
  inner : ∀ s st, s.index < body.index → p.stmts.get? s = some st → p.Plain body.index st
  block : ∃ ss, p.stmts.get? body = some (.block (ss ++ [⟨body.index + 1⟩])) ∧
    ∀ s ∈ ss, s.index < body.index
  last : ∃ e : ExprId, p.stmts.get? ⟨body.index + 1⟩ = some (.ret (some e)) ∧ e.index < p.exprs.size
  held : p.AllHeld [.stmt body]

/-- The return is put at the end of the block, which becomes the body. -/
theorem Unfinished.finished {block : StmtId} {e : ExprId} {ss : List StmtId}
    (h : Unfinished p [.expr e, .stmt block] known) (hsize : p.stmts.size = block.index + 1)
    (hblock : p.stmts.get? block = some (.block ss)) :
    Finished (ofBody block (extendBlock (p.addStmt (.ret (some e))) block p.stmts.next)).program
      block := by
  have hlt : block.index < p.stmts.size := Arena.get?_eq_some_lt hblock
  have hnext : p.stmts.next = ⟨block.index + 1⟩ := congrArg Handle.mk hsize
  have hne : block ≠ p.stmts.next := by
    intro heq
    rw [heq] at hlt
    exact Nat.lt_irrefl _ hlt
  -- What the statements are, the block apart.
  have hget : ∀ s, s ≠ block →
      (extendBlock (p.addStmt (.ret (some e))) block p.stmts.next).stmts.get? s =
        (p.addStmt (.ret (some e))).stmts.get? s := by
    intro s hs
    rw [extendBlock, Arena.get?_modify, if_neg (Ne.symm hs)]
  have hold : (p.addStmt (.ret (some e))).stmts.get? block = some (.block ss) :=
    (Arena.get?_push_of_lt _ hlt).trans hblock
  have hself : (extendBlock (p.addStmt (.ret (some e))) block p.stmts.next).stmts.get? block =
      some (.block (ss ++ [p.stmts.next])) := by
    rw [extendBlock, Arena.get?_modify, if_pos rfl, hold]
    rfl
  exact {
    vars := h.vars
    methods := congrArg (Arena.modify · entry _) h.methods
    exprs := fun _ x hx => (h.exprs _ x hx).mono (Nat.le_refl _)
      (Nat.le_of_eq (Arena.size_modify ..).symm) fun _ _ hy => hy
    size := ((Arena.size_modify ..).trans (Arena.size_push ..)).trans (congrArg (· + 1) hsize)
    inner := fun s st hs hst => by
      have hst' : p.stmts.get? s = some st := by
        rw [← hst]
        refine ((hget s fun heq => ?_).trans (Arena.get?_push_of_lt _ (Nat.lt_trans hs hlt))).symm
        exact Nat.ne_of_lt hs (congrArg Handle.index heq)
      exact (h.stmts s st hst').mono (Nat.le_of_lt hs) (Nat.le_refl _) (Nat.le_refl _)
    block := ⟨ss, hnext ▸ hself, (h.stmts block _ hblock).children⟩
    last := ⟨e, hnext ▸ (hget _ hne.symm).trans (Arena.get?_push_next ..), h.expr_lt List.mem_cons_self⟩
    held := by
      have hret : (p.addStmt (.ret (some e))).AllHeld [.stmt p.stmts.next, .stmt block] :=
        Program.AllHeld.addStmt h.held
      have hmem : Piece.stmt block ∈ (p.addStmt (.ret (some e))).pieces := by
        rw [Program.stmt_mem_pieces, Program.addStmt, Arena.size_push]
        exact Nat.lt_succ_of_lt hlt
      refine hret.extend ?_ hmem ?_ fun z _ hz => ?_
      · change (Arena.handles (Arena.modify _ block _)).map _ ++ _ = _
        rw [Arena.handles_modify]
        rfl
      · simp only [Walk.partsOf, Program.parts, ofBody, hself, hold]
        simp [Stmt.exprs, Stmt.children]
      · cases z with
        | stmt s =>
          have hs : s ≠ block := fun heq => hz (congrArg Piece.stmt heq)
          simp only [Walk.partsOf, Program.parts, ofBody, hget s hs]
        | expr => rfl }

theorem body_finished : Ensures body base fun block p => Finished (ofBody block p).program block := by
  refine ensures_bind ((ensures_blockOf (fun h => ensures_stmt depth h) unfinished_base).imp ?_)
  rintro block p ⟨hp, hsize, ss, hblock⟩
  exact ensures_bind (ensures_varExpr hp fun v hq => ensures_bind (ensures_addStmt
    (ensures_bind (ensures_modify (ensures_pure (hq.finished hsize hblock))))))

namespace Finished

variable {body : StmtId} (h : Finished p body)
include h

theorem bodies : p.bodies = [(entry, body)] := by
  rw [Program.bodies, h.methods]
  rfl

/-- Every statement is a plain one, the body or the return at its end. -/
theorem stmt_cases {s : StmtId} {st : Stmt} (hs : p.stmts.get? s = some st) :
    p.Plain p.stmts.size st ∨ ∃ e : ExprId, st = .ret (some e) ∧ e.index < p.exprs.size := by
  have hlt : s.index < body.index + 2 := h.size ▸ Arena.get?_eq_some_lt hs
  have hsize := h.size
  rcases (show s.index < body.index ∨ s.index = body.index ∨ s.index = body.index + 1 by omega) with
    hinner | hbody | hlast
  · exact .inl ((h.inner s st hinner hs).mono (by omega) (Nat.le_refl _) (Nat.le_refl _))
  · obtain ⟨ss, hblock, hss⟩ := h.block
    obtain rfl : s = body := Handle.index_inj.1 hbody
    cases hblock.symm.trans hs
    refine .inl ⟨by simp, fun t ht => ?_, by simp [Stmt.exprs], by simp⟩
    rcases List.mem_append.1 ht with ht | ht
    · have := hss t ht
      omega
    · rw [List.mem_singleton.1 ht, hsize]
      exact Nat.lt_succ_self _
  · obtain ⟨e, hret, he⟩ := h.last
    obtain rfl : s = ⟨body.index + 1⟩ := Handle.index_inj.1 hlast
    cases hret.symm.trans hs
    exact .inr ⟨e, rfl, he⟩

theorem exists_method {m : MethodId} {decl : Method} (hm : p.methods.get? m = some decl) :
    ∃ decl' ∈ base.methods.values, decl.params = decl'.params := by
  rw [h.methods, Arena.get?_modify] at hm
  split at hm
  · obtain ⟨decl', hdecl', rfl⟩ := Option.map_eq_some_iff.1 hm
    exact ⟨decl', Program.mem_values hdecl', rfl⟩
  · exact ⟨decl, Program.mem_values hm, rfl⟩

theorem inRange : p.InRange where
  params m decl hm v hv := by
    obtain ⟨decl', hdecl', hparams⟩ := h.exists_method hm
    have hbase : ∀ decl ∈ base.methods.values, ∀ v ∈ decl.params, v.index < base.vars.size := by decide
    rw [h.vars]
    exact hbase decl' hdecl' v (hparams ▸ hv)
  body m decl s hm hs := by
    have hmem : (m, s) ∈ p.bodies := Program.mem_bodies_iff.2 (by rw [hm]; exact hs)
    rw [h.bodies, List.mem_singleton] at hmem
    cases hmem
    rw [h.size]
    omega
  children s st hs t ht := by
    rcases h.stmt_cases hs with hplain | ⟨e, rfl, _⟩
    · exact hplain.children t ht
    · cases ht
  exprs s st hs e he := by
    rcases h.stmt_cases hs with hplain | ⟨e', rfl, hlt⟩
    · exact hplain.exprs e he
    · rw [List.mem_singleton.1 he]
      exact hlt
  declared s v init hs := by
    rcases h.stmt_cases hs with hplain | ⟨e', heq, _⟩
    · exact hplain.declared v init rfl
    · cases heq
  operands e x hx := (h.exprs e x hx).operands
  named e x v hx := (h.exprs e x hx).named v
  callee e m receiver args hx := (h.exprs e _ hx).callee m receiver args rfl

/-- No piece is held by two slots, be they inside the body or not. -/
theorem unique {a b : Slot} {x : Piece} (ha : p.held a = some x) (hb : p.held b = some x) : a = b := by
  have hroots : p.roots = [.stmt body] := by
    rw [Program.roots, h.bodies]
    rfl
  have howner : ∀ {c : Slot}, p.held c = some x → ∀ y, c.owner = some y → y ∈ p.pieces := by
    intro c hc y hy
    obtain ⟨ys, hys, _⟩ := Program.mem_parts_of_held hy hc
    exact Program.mem_pieces_of_parts hys
  refine Program.slot_eq_of_held_eq ?_ (howner ha) (howner hb) ha hb
  rw [hroots]
  exact h.held.nodup_iff.2 p.pieces_nodup

theorem isTree : p.IsTree where
  inRange := h.inRange
  unique _ _ _ _ _ ha hb := h.unique ha hb
  fields e object v hx := by cases (h.exprs e _ hx).evaluated

theorem exists_graph : ∃ g, Graph.ofMethod p entry = .ok (.ok g) ∧ g.verify = .ok () := by
  have hmem : (entry, body) ∈ p.bodies := by
    rw [h.bodies]
    exact List.mem_singleton_self _
  obtain ⟨all, hwalk⟩ := h.isTree.exists_walk (.body entry) (Program.held_body_iff.2 hmem)
  have hplaces : p.AssignsPlaces (.stmt body) := fun e x _ hx t ht => .inl ((h.exprs e x hx).targets t ht)
  obtain ⟨g, hg⟩ := (Program.acyclic_iff_exists_walk.2 ⟨all, hwalk⟩).exists_ofBody_iff.2 hplaces
  exact ⟨g, (Inlining.ofMethod_eq hmem).2.trans hg, (Graph.ofBody_laidOut hg).1.verify_eq⟩

/-- Only a lack of fuel keeps the return at the end of the body from returning a value. -/
theorem last_endures (depth : Nat) :
    (unroll (throw .outOfFuel) p.evalStmtStep depth ⟨body.index + 1⟩).Endures depth 0
      (∃ v, · = .returned (some v)) := by
  cases depth with
  | zero => exact fun m hm => absurd hm (Nat.not_lt_zero _)
  | succ depth =>
    obtain ⟨e, hlast, he⟩ := h.last
    refine Eval.Endures.mono (Eval.endures_spend.bind (fun _ _ => (Eval.endures_lookup hlast).andThen ?_)
      (Nat.le_refl _)) (Nat.le_refl _) (Nat.zero_le 1)
    rintro _ rfl
    exact (Program.evalExpr_endures h.exprs he).andThen fun v _ => Eval.endures_pure ⟨v, rfl⟩

/-- Only a lack of fuel keeps the body from returning a value. -/
theorem body_endures (bound : Nat) :
    (p.evalStmt body).Endures bound 0 (∃ v, · = .returned (some v)) := by
  refine Program.evalStmt_endures_of_levels fun depth => ?_
  cases depth with
  | zero => exact fun m hm => absurd hm (Nat.not_lt_zero _)
  | succ depth =>
    obtain ⟨ss, hblock, hss⟩ := h.block
    have hle : body.index ≤ p.stmts.size := by
      rw [h.size]
      exact Nat.le_add_right _ _
    refine Eval.Endures.mono (Eval.endures_spend.bind (fun _ _ => (Eval.endures_lookup hblock).andThen ?_)
      (Nat.le_refl _)) (Nat.le_refl _) (Nat.zero_le 1)
    rintro _ rfl
    refine Eval.endures_sequence (fun s hs =>
      Program.unroll_evalStmtStep_endures h.exprs hle h.inner depth (hss s hs)) ?_
    refine (h.last_endures depth).andThen ?_
    rintro _ ⟨v, rfl⟩
    exact Eval.endures_pure ⟨v, rfl⟩

end Finished

/-- A run of a method stops where the fuel is used up, or it returns a value. -/
def StopsOrReturns (p : Program) (method : MethodId) (args : List Int64) (fuel : Nat) : Prop :=
  ∃ decl body result m, p.methods.get? method = some decl ∧ decl.body = some body ∧
    (p.evalStmt body).run.run (Program.enterMethod decl args fuel) = .ok (result, m) ∧
    (result = .error .outOfFuel ∧ m.fuel = 0 ∧ p.evaluate method args fuel = .ok none ∨
      ∃ v, result = .ok (.returned (some v)) ∧
        p.evaluate method args fuel = .ok (some ⟨some v, m.effects.toList⟩))

/-- A sample that can be lowered, inlined and evaluated. -/
structure WellMade (s : Sample) : Prop where
  declared : ∃ decl, s.program.methods.get? s.method = some decl ∧ decl.params = s.params
  inRange : s.program.InRange
  unique : ∀ a b x, s.program.held a = some x → s.program.held b = some x → a = b
  targets : ∀ e x, s.program.exprs.get? e = some x →
    ∀ t ∈ x.targets, ∃ v, s.program.exprs.get? t = some (.var v)
  graph : ∃ g, Graph.ofMethod s.program s.method = .ok (.ok g) ∧ g.verify = .ok ()
  ends : ∀ args fuel, StopsOrReturns s.program s.method args fuel

namespace Finished

variable {body : StmtId} (h : Finished p body)
include h

theorem get_entry : p.methods.get? entry = some ⟨"run", .int, parameters, false, some body⟩ := by
  rw [h.methods]
  rfl

theorem stopsOrReturns (args : List Int64) (fuel : Nat) : StopsOrReturns p entry args fuel := by
  have hget := Arena.get_eq_ok_iff.2 h.get_entry
  refine ⟨⟨"run", .int, parameters, false, some body⟩, body, ?_⟩
  rcases h.body_endures (fuel + 1) (Program.enterMethod _ args fuel) (Nat.lt_succ_self _) with
    ⟨_, m, hgives, ⟨v, rfl⟩, _⟩ | ⟨m, hrun, hempty⟩
  · exact ⟨_, m, h.get_entry, rfl, hgives, .inr ⟨v, rfl,
      Run.bind_eq_ok.2 ⟨_, hget, Run.bind_eq_ok.2 ⟨_, hgives, rfl⟩⟩⟩⟩
  · exact ⟨_, m, h.get_entry, rfl, hrun, .inl ⟨rfl, hempty,
      Run.bind_eq_ok.2 ⟨_, hget, Run.bind_eq_ok.2 ⟨_, hrun, rfl⟩⟩⟩⟩

end Finished

theorem planned_always_wellMade : planned.Always WellMade := by
  refine Plan.always_bind (Plan.Always.imp body_finished ?_)
  rintro ⟨block, p⟩ h
  exact {
    declared := ⟨_, h.get_entry, rfl⟩
    inRange := h.inRange
    unique := fun _ _ _ => h.unique
    targets := fun e x hx => (h.exprs e x hx).targets
    graph := h.exists_graph
    ends := h.stopsOrReturns }

/-- Whatever a source chooses from, a sample that comes of it is well made; so is the sample of any
    row of bytes. -/
theorem wellMade : (∀ {σ ε : Type} (source : (most : Nat) → StateT σ (Except ε) (Fin (most + 1)))
      (s s' : σ) (sample : Sample), (planned.run source).run s = .ok (sample, s') → sample.WellMade) ∧
    ∀ bytes, (ofBytes bytes).WellMade :=
  ⟨fun _ _ _ _ hrun => planned_always_wellMade.of_run hrun, fun bytes => planned_always_wellMade.run bytes⟩

/-- The next of some numbers that are given. There is none after the last one, and one that is too
    large is no choice. -/
def nextNumber (most : Nat) : StateT (List Nat) (Except Unit) (Fin (most + 1))
  | [] => .error ()
  | n :: rest => if h : n < most + 1 then .ok (⟨n, h⟩, rest) else .error ()

/-- The choices that make a sample which counts its argument down and then returns a variable that it
    has increased. -/
def countdown : List Nat := [2, 4, 1, 0, 1, 1, 0, 2, 1, 1, 0, 0, 5, 2, 2, 2]

theorem wellMade_countdown : ∃ sample, (planned.run nextNumber).run countdown = .ok (sample, []) ∧
    sample.program.evaluate sample.method [3, 0] 40 = .ok (some ⟨some 1, []⟩) ∧ sample.WellMade :=
  ⟨_, rfl, by decide +kernel, wellMade.1 nextNumber countdown [] _ rfl⟩

end Sample

end Dataflow
