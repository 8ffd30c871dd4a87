import Dataflow.Inlining.Analysis
import Dataflow.Proofs.Operations

/-!
# Expressions without side effects

What the questions about an expression as a whole come to, in terms of the list of
everything inside it (`Spans`): whether it has side effects, allocates, or names a
variable.

* `Program.Inert`: nothing in a list has side effects or allocates;
* `Program.Avoids`: nothing in a list names a variable;
* `Inlining.isInlinable_iff`: a value may be inlined if it is inert and avoids the variable
  that it stands for;
* `Spans.exists_emits_of_inert`: inert expressions have operations, and all that is inside them is
  evaluated.
-/

namespace Dataflow

namespace Program

/-- Nothing in a list of expressions has side effects or allocates. -/
def Inert (p : Program) (l : List ExprId) : Prop :=
  ∀ e ∈ l, ∀ x, p.exprs.get? e = some x → p.impureHead x = false ∧ x.isAllocation = false

/-- Nothing in a list of expressions names a variable. -/
def Avoids (p : Program) (l : List ExprId) (v : VarId) : Prop :=
  ∀ e ∈ l, ∀ x, p.exprs.get? e = some x → x.namedVar ≠ some v

end Program

variable {p : Program} {es l : List ExprId} {e : ExprId}

/-- The expressions of a list, each with its handle. -/
def Program.entriesOf (p : Program) (l : List ExprId) : List (ExprId × Expr) :=
  l.filterMap fun e => (p.exprs.get? e).map (Prod.mk e)

theorem Program.mem_entriesOf {x : Expr} :
    (e, x) ∈ p.entriesOf l ↔ e ∈ l ∧ p.exprs.get? e = some x := by
  simp only [entriesOf, List.mem_filterMap, Option.map_eq_some_iff, Prod.mk.injEq]
  constructor
  · rintro ⟨_, he, _, hx, rfl, rfl⟩
    exact ⟨he, hx⟩
  · rintro ⟨he, hx⟩
    exact ⟨e, he, x, hx, rfl, rfl⟩

theorem Spans.mapM_subexprs (h : Spans p es l) {depth : Nat} (hdepth : l.dedup.length ≤ depth) :
    ∃ lists, es.mapM (unroll (throw .endless) p.subexprsStep depth) =
        (.ok lists : Run (List (List (ExprId × Expr)))) ∧ lists.flatten = p.entriesOf l := by
  induction h generalizing depth with
  | nil => exact ⟨[], rfl, rfl⟩
  | @cons e x es inner rest hx hinner _ ih₁ ih₂ =>
    have hbelow := length_dedup_below_lt (Spans.not_mem_inner hx hinner) rest
    have hbeside := length_dedup_beside_le e inner rest
    obtain ⟨depth, rfl⟩ : ∃ k, depth = k + 1 := ⟨depth - 1, by omega⟩
    obtain ⟨below, hbelow, hflat⟩ := ih₁ (show inner.dedup.length ≤ depth by omega)
    obtain ⟨lists, hlists, hflat'⟩ := ih₂ (show rest.dedup.length ≤ depth + 1 by omega)
    have hstep : unroll (throw .endless) p.subexprsStep (depth + 1) e =
        (.ok ((e, x) :: below.flatten) : Run _) := by
      rw [unroll_succ, Program.subexprsStep]
      exact Run.bind_eq_ok.2 ⟨x, Arena.get_eq_ok_iff.2 hx,
        Run.bind_eq_ok.2 ⟨below, hbelow, rfl⟩⟩
    refine ⟨((e, x) :: below.flatten) :: lists, ?_, ?_⟩
    · rw [List.mapM_cons, hstep, hlists]
      rfl
    · rw [List.flatten_cons, hflat, hflat']
      simp [Program.entriesOf, hx]

/-- Listing the subexpressions of an expression. -/
theorem Spans.subexprs_eq (h : Spans p [e] l) : p.subexprs e = .ok (p.entriesOf l) := by
  obtain ⟨lists, hlists, hflat⟩ := h.mapM_subexprs (Nat.le_succ_of_le h.length_dedup_le)
  rw [List.mapM_cons, List.mapM_nil] at hlists
  obtain ⟨first, hfirst, hlists⟩ := Run.bind_eq_ok.1 hlists
  cases hlists
  rw [List.flatten_cons, List.flatten_nil, List.append_nil] at hflat
  rw [← hflat]
  exact hfirst

theorem Program.isImpureAlone_eq (hp : p.InRange) {x : Expr} (hx : p.exprs.get? e = some x) :
    p.isImpureAlone e x = .ok (p.impureHead x) := by
  cases x with
  | call method receiver args =>
    obtain ⟨decl, hdecl⟩ := Arena.exists_get?_of_lt (hp.callee e method receiver args hx)
    rw [isImpureAlone, callIsImpure, Arena.get_eq_ok_iff.2 hx]
    change (p.methods.get method >>= _) = _
    rw [Arena.get_eq_ok_iff.2 hdecl, impureHead, hdecl]
    rfl
  | newObject className =>
    rw [isImpureAlone, callIsImpure, Arena.get_eq_ok_iff.2 hx]
    rfl
  | _ => rfl

/-- Whether an expression has side effects, by all that is inside it. -/
theorem Spans.isImpure_eq (hp : p.InRange) (h : Spans p [e] l) :
    p.isImpure e = .ok ((p.entriesOf l).any fun entry => p.impureHead entry.2) := by
  have hmap : ∀ entries : List (ExprId × Expr),
      (∀ entry ∈ entries, p.exprs.get? entry.1 = some entry.2) →
      entries.mapM (fun entry => p.isImpureAlone entry.1 entry.2) =
        .ok (entries.map fun entry => p.impureHead entry.2) := by
    intro entries hentries
    induction entries with
    | nil => rfl
    | cons entry entries ih =>
      rw [List.forall_mem_cons] at hentries
      rw [List.mapM_cons, Program.isImpureAlone_eq hp hentries.1, ih hentries.2]
      rfl
  rw [Program.isImpure, h.subexprs_eq]
  change ((p.entriesOf l).mapM (fun entry => p.isImpureAlone entry.1 entry.2) >>= _) = _
  rw [hmap _ fun entry hentry => (Program.mem_entriesOf.1 hentry).2]
  change Except.ok _ = Except.ok _
  rw [List.any_map]
  rfl

theorem Spans.allocates_eq (h : Spans p [e] l) :
    p.allocates e = .ok ((p.entriesOf l).any fun entry => entry.2.isAllocation) := by
  rw [Program.allocates, h.subexprs_eq]
  rfl

theorem Spans.references_eq (h : Spans p [e] l) (v : VarId) :
    p.references e v = .ok ((p.entriesOf l).any fun entry => entry.2.namedVar == some v) := by
  rw [Program.references, h.subexprs_eq]
  rfl

/-- No member of a list of entries passes a test if none of the expressions does. -/
theorem Program.any_entriesOf_eq_false (test : Expr → Bool) :
    ((p.entriesOf l).any fun entry => test entry.2) = false ↔
      ∀ e ∈ l, ∀ x, p.exprs.get? e = some x → test x = false := by
  rw [List.any_eq_false]
  constructor
  · intro h e he x hx
    exact Bool.eq_false_iff.2 (h (e, x) (mem_entriesOf.2 ⟨he, hx⟩))
  · rintro h ⟨e, x⟩ hentry
    obtain ⟨he, hx⟩ := mem_entriesOf.1 hentry
    exact Bool.eq_false_iff.1 (h e he x hx)

namespace Inlining

/-- A value may be inlined if it is inert and avoids the variable that it stands for. -/
theorem isInlinable_iff (hp : p.InRange) (h : Spans p [e] l) (v : VarId) :
    ∃ b, isInlinable .declared p v e = .ok b ∧ (b = true ↔ p.Inert l ∧ p.Avoids l v) := by
  have himpure := h.isImpure_eq hp
  have hallocates := h.allocates_eq
  have hreferences := h.references_eq v
  have hinert : p.Inert l ↔ ((p.entriesOf l).any fun entry => p.impureHead entry.2) = false ∧
      ((p.entriesOf l).any fun entry => entry.2.isAllocation) = false := by
    rw [Program.any_entriesOf_eq_false p.impureHead, Program.any_entriesOf_eq_false Expr.isAllocation]
    exact ⟨fun h => ⟨fun e he x hx => (h e he x hx).1, fun e he x hx => (h e he x hx).2⟩,
      fun h e he x hx => ⟨h.1 e he x hx, h.2 e he x hx⟩⟩
  have havoids : p.Avoids l v ↔
      ((p.entriesOf l).any fun entry => entry.2.namedVar == some v) = false := by
    rw [Program.any_entriesOf_eq_false fun x => x.namedVar == some v]
    simp only [beq_eq_false_iff_ne]
    rfl
  rw [hinert, havoids]
  generalize ((p.entriesOf l).any fun entry => p.impureHead entry.2) = a at *
  generalize ((p.entriesOf l).any fun entry => entry.2.isAllocation) = b at *
  generalize ((p.entriesOf l).any fun entry => entry.2.namedVar == some v) = c at *
  refine ⟨!a && !b && !c, ?_, by simp [and_assoc]⟩
  rw [isInlinable]
  change (p.isImpure e >>= _) = _
  rw [himpure]
  cases a with
  | true => rfl
  | false =>
    change (p.allocates e >>= _) = _
    rw [hallocates]
    cases b with
    | true => rfl
    | false =>
      change (p.references e v >>= _) = _
      rw [hreferences]
      rfl

end Inlining

/-! ### Operations of inert expressions -/

/-- An expression without side effects evaluates all its operands. -/
theorem Program.exists_emits_of_inert {x : Expr} (hx : p.impureHead x = false) (e : ExprId) :
    ∃ own, p.emits e x = some (x.operands, own) := by
  cases x with
  | assign | compound | increment | newObject => cases hx
  | _ => exact ⟨_, rfl⟩

/-- Inert expressions have operations, and everything inside them is evaluated. -/
theorem Spans.exists_emits_of_inert (h : Spans p es l) (hl : p.Inert l) :
    ∃ os, Emits p es l os := by
  induction h with
  | nil => exact ⟨[], .nil⟩
  | @cons e x es inner rest hx _ _ ih₁ ih₂ =>
    rw [Program.Inert, List.forall_mem_cons, List.forall_mem_append] at hl
    obtain ⟨own, hown⟩ := Program.exists_emits_of_inert (hl.1 x hx).1 e
    obtain ⟨before, hbefore⟩ := ih₁ hl.2.1
    obtain ⟨after, hafter⟩ := ih₂ hl.2.2
    exact ⟨_, .cons hx hown hbefore hafter⟩

namespace Emits

variable {os : List Operation}

/-- What is evaluated for expressions, and their operations, are given by the program. -/
theorem unique (h : Emits p es l os) {l' : List ExprId} {os' : List Operation}
    (h' : Emits p es l' os') : l' = l ∧ os' = os := by
  induction h generalizing l' os' with
  | nil =>
    cases h'
    exact ⟨rfl, rfl⟩
  | cons he hx _ _ ih₁ ih₂ =>
    cases h' with
    | cons he' hx' h₁ h₂ =>
      rw [he] at he'
      cases he'
      rw [hx] at hx'
      cases hx'
      obtain ⟨rfl, rfl⟩ := ih₁ h₁
      obtain ⟨rfl, rfl⟩ := ih₂ h₂
      exact ⟨rfl, rfl⟩

/-- An evaluated variable is read. -/
theorem mem_of_var (h : Emits p es l os) (he : e ∈ l) {v : VarId}
    (hv : p.exprs.get? e = some (.var v)) : ⟨.read v, e⟩ ∈ os := by
  induction h with
  | nil => cases he
  | @cons e' x ins own es inner rest before after he' hx _ _ ih₁ ih₂ =>
    rcases List.mem_cons.1 he with rfl | he
    · rw [hv] at he'
      cases he'
      cases hx
      simp
    · rcases List.mem_append.1 he with he | he
      · exact List.mem_append_left _ (ih₁ he)
      · exact List.mem_append_right _ (List.mem_append_right _ (ih₂ he))

end Emits

end Dataflow
