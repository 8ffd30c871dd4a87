import Dataflow.Proofs.Acceptance
import Dataflow.Proofs.Drafts
import Dataflow.Proofs.EditedOperations
import Mathlib.Data.Fintype.Card

/-!
# Programs without cycles

Handles may share what they name, but lowering only comes to an end where nothing is inside
itself. This is all that it needs, apart from targets that can be assigned to: where following the
handles from a body leads to slots that are there and never back, the graph of the body is made
if and only if every assignment in it is to a variable or a field.

* `Program.Acyclic`: everything inside a piece is there, and nothing is inside itself;
* `Program.acyclic_iff_exists_walk`: so everything inside it can be listed, what is shared more
  than once;
* `Program.checksAcyclic`: the same as a check, together with where assignments go;
* `Program.Acyclic.exists_operations`: the operations of an expression without cycles;
* `Program.Acyclic.exists_ofBody_iff`: the graph of a body without cycles.
-/

namespace Dataflow

namespace Program

variable {p : Program} {x y : Piece}

/-- Everything inside a piece is there, and nothing in it is inside itself. -/
structure Acyclic (p : Program) (x : Piece) : Prop where
  there : ∀ y, p.Inside x y → ∃ ys, p.parts y = some ys
  irrefl : ∀ y, p.Inside x y → ¬Relation.TransGen p.HasPart y y

theorem Acyclic.inside (h : p.Acyclic x) (hy : p.Inside x y) : p.Acyclic y where
  there z hz := h.there z (hy.trans hz)
  irrefl z hz := h.irrefl z (hy.trans hz)

/-! ### Walks -/

theorem mem_pieces_of_parts {ys : List Piece} (h : p.parts x = some ys) : x ∈ p.pieces := by
  cases x with
  | stmt s =>
    obtain ⟨st, hst, _⟩ := Option.map_eq_some_iff.1 h
    exact List.mem_append_left _
      (List.mem_map_of_mem (Arena.mem_handles.2 (Arena.get?_eq_some_lt hst)))
  | expr e =>
    obtain ⟨y, hy, _⟩ := Option.map_eq_some_iff.1 h
    exact List.mem_append_right _
      (List.mem_map_of_mem (Arena.mem_handles.2 (Arena.get?_eq_some_lt hy)))

/-- Following the parts of a piece comes to an end: the pieces inside it are finitely many, and
    none of them is met again below itself. -/
theorem Acyclic.exists_walk (h : p.Acyclic x) : ∃ all, Walk p [x] all := by
  let below (z y : {y // p.Inside x y}) : Prop := Relation.TransGen p.HasPart y.1 z.1
  have hfinite : Finite {y // p.Inside x y} := by
    refine Set.Finite.subset p.pieces.toFinset.finite_toSet fun y hy => ?_
    obtain ⟨ys, hys⟩ := h.there y hy
    exact List.mem_toFinset.2 (mem_pieces_of_parts hys)
  have htrans : IsTrans _ below := ⟨fun _ _ _ hab hbc => hbc.trans hab⟩
  have hirrefl : Std.Irrefl below := ⟨fun y => h.irrefl y.1 y.2⟩
  have hwf : WellFounded below := Finite.wellFounded_of_trans_of_irrefl below
  suffices hall : ∀ y : {y // p.Inside x y}, ∃ all, Walk p [y.1] all from hall ⟨x, .refl⟩
  intro y
  induction y using hwf.induction with
  | _ y ih =>
    obtain ⟨ys, hys⟩ := h.there y.1 y.2
    have hparts : ∀ z ∈ ys, ∃ l, Walk p [z] l := fun z hz =>
      ih ⟨z, y.2.tail ⟨ys, hys, hz⟩⟩ (.single ⟨ys, hys, hz⟩)
    obtain ⟨inner, hinner⟩ := Walk.exists_of_forall hparts
    exact ⟨_, .cons hys hinner .nil⟩

/-- Where everything inside can be listed, going from a piece to its parts comes to an end. -/
theorem acc_of_walk {xs all : List Piece} (h : Walk p xs all) :
    ∀ x ∈ all, Acc (fun z y => p.HasPart y z) x := by
  induction h with
  | nil => exact fun x hx => absurd hx List.not_mem_nil
  | @cons x xs ys inner rest hx hinner _ ih₁ ih₂ =>
    have hacc : Acc (fun z y => p.HasPart y z) x := by
      refine .intro x fun z ⟨zs, hzs, hz⟩ => ih₁ z (hinner.mem_of_mem_roots ?_)
      cases hx.symm.trans hzs
      exact hz
    intro y hy
    rcases List.mem_cons.1 hy with rfl | hy
    · exact hacc
    · exact (List.mem_append.1 hy).elim (ih₁ y) (ih₂ y)

theorem inside_mem_of_walk {xs all : List Piece} (h : Walk p xs all) (hx : x ∈ all)
    (hy : p.Inside x y) : y ∈ all := by
  induction hy with
  | refl => exact hx
  | tail _ hpart ih =>
    obtain ⟨zs, hzs, hz⟩ := hpart
    exact h.mem_of_mem_parts ih hzs hz

theorem acyclic_iff_exists_walk : p.Acyclic x ↔ ∃ all, Walk p [x] all := by
  refine ⟨fun h => h.exists_walk, ?_⟩
  rintro ⟨all, h⟩
  have hmem : ∀ y, p.Inside x y → y ∈ all := fun y hy =>
    inside_mem_of_walk h (h.mem_of_mem_roots (List.mem_singleton_self x)) hy
  refine ⟨fun y hy => h.exists_parts (hmem y hy), fun y hy hcycle => ?_⟩
  have hacc : Acc (Relation.TransGen fun z y => p.HasPart y z) y :=
    (acc_of_walk h y (hmem y hy)).transGen
  replace hcycle : Relation.TransGen (fun z y => p.HasPart y z) y y := Relation.transGen_swap.1 hcycle
  induction hacc with
  | intro y _ ih => exact ih y hcycle (hy.trans (Relation.transGen_swap.1 hcycle).to_reflTransGen) hcycle

theorem Acyclic.exists_spans {e : ExprId} (h : p.Acyclic (.expr e)) : ∃ l, Spans p [e] l := by
  obtain ⟨all, hall⟩ := h.exists_walk
  obtain ⟨l, _, _, hl, _⟩ := hall.exists_spans [e] [] rfl
  exact ⟨l, hl⟩

theorem Acyclic.exists_stmtSpans {s : StmtId} (h : p.Acyclic (.stmt s)) :
    ∃ ls le, StmtSpans p [s] ls le := by
  obtain ⟨all, hall⟩ := h.exists_walk
  obtain ⟨_, ls, le, _, hs, _⟩ := hall.exists_spans [] [s] rfl
  exact ⟨ls, le, hs⟩

/-! ### Assignments -/

/-- An expression that can be assigned to: a variable or a field. -/
def IsPlace (p : Program) (t : ExprId) : Prop :=
  (∃ v, p.exprs.get? t = some (.var v)) ∨ ∃ object v, p.exprs.get? t = some (.field object v)

/-- Every assignment inside a piece is to a variable or a field. -/
def AssignsPlaces (p : Program) (x : Piece) : Prop :=
  ∀ e y, p.Inside x (.expr e) → p.exprs.get? e = some y → ∀ t ∈ y.targets, p.IsPlace t

theorem IsPlace.namedVar_ne_none {t : ExprId} {z : Expr} (h : p.IsPlace t)
    (hz : p.exprs.get? t = some z) : z.namedVar ≠ none := by
  obtain ⟨v, ht⟩ | ⟨object, v, ht⟩ := h <;> cases ht.symm.trans hz <;> exact Option.some_ne_none v

theorem isPlace_iff {t : ExprId} : p.IsPlace t ↔ (p.targetParts t).isSome = true := by
  constructor
  · rintro (⟨v, ht⟩ | ⟨object, v, ht⟩)
    all_goals
      rw [targetParts, ht]
      rfl
  · intro h
    rw [targetParts] at h
    split at h
    · next v hv => exact .inl ⟨v, hv⟩
    · next object v hv => exact .inr ⟨object, v, hv⟩
    · cases h

/-- What an expression assigns to can be assigned to, if it has operations. -/
theorem isPlace_of_emits {e t : ExprId} {z : Expr} {ins : List ExprId} {own : List Operation}
    (h : p.emits e z = some (ins, own)) (ht : t ∈ z.targets) : p.IsPlace t :=
  isPlace_iff.2 (Option.isSome_iff_exists.2 (exists_targetParts_of_emits h ht))

/-- Whether a piece, those inside it aside, assigns to variables and fields only. -/
def assignsPlace (p : Program) : Piece → Bool
  | .stmt _ => true
  | .expr e => (p.exprs.get? e).all fun z => z.targets.all fun t => (p.targetParts t).isSome

/-- Whether a walk of limited depth lists all of a piece, with assignments to variables and fields
    only. -/
def checksAcyclic (p : Program) (depth : Nat) (x : Piece) : Bool :=
  (p.walk depth [x]).any fun all => all.all p.assignsPlace

theorem acyclic_of_check {depth : Nat} (h : p.checksAcyclic depth x = true) :
    p.Acyclic x ∧ p.AssignsPlaces x := by
  obtain ⟨all, hall, hplaces⟩ := (Option.any_eq_true _ _).1 h
  have hwalk := walk_of_eq_some hall
  refine ⟨acyclic_iff_exists_walk.2 ⟨all, hwalk⟩, fun e z hin hz t ht => isPlace_iff.2 ?_⟩
  have he := inside_mem_of_walk hwalk (hwalk.mem_of_mem_roots (List.mem_singleton_self x)) hin
  have hcheck := List.all_eq_true.1 hplaces _ he
  rw [assignsPlace, hz] at hcheck
  exact List.all_eq_true.1 hcheck t ht

/-- The operations of an expression without cycles that assigns to variables and fields only. -/
theorem Acyclic.exists_operations {e : ExprId} (h : p.Acyclic (.expr e))
    (hplaces : p.AssignsPlaces (.expr e)) :
    ∃ os, p.operations e = (.ok (.ok os) : Run (Except Error _)) := by
  obtain ⟨l, hl⟩ := h.exists_spans
  have hanswer := hl.operations_answers (fun _ => False) (fun o ho z hz t ht y hy hnamed => ?_) e
    (hl.mem_of_mem_roots (List.mem_singleton_self e))
  · exact hanswer.resolve_right fun ⟨_, hbad, _⟩ => hbad
  · obtain ⟨_, he, hin⟩ := hl.exists_inside ho
    rw [List.mem_singleton.1 he] at hin
    exact (hplaces o z hin hz t ht).namedVar_ne_none hy hnamed

/-- Where expressions have operations, every assignment in them is to a variable or a field. -/
theorem isPlace_of_spells {es l : List ExprId} {os : List Operation} {e t : ExprId} {z : Expr}
    (h : p.Spells es os) (hl : Spans p es l) (he : e ∈ l) (hz : p.exprs.get? e = some z)
    (ht : t ∈ z.targets) : p.IsPlace t := by
  obtain ⟨evaluated, hem⟩ := Emits.exists_of_spells h
  rcases List.mem_append.1 ((hem.perm hl).mem_iff.1 he) with he | he
  · obtain ⟨z', _, _, hz', hemits, _⟩ := hem.exists_emits he
    cases hz.symm.trans hz'
    exact isPlace_of_emits hemits ht
  · -- What is assigned to is not an assignment itself.
    obtain ⟨o, ho, he⟩ := List.mem_flatMap.1 he
    obtain ⟨y, _, _, hy, hemits, _⟩ := hem.exists_emits ho
    rw [hy] at he
    rw [targets_of_emits hemits he hz] at ht
    cases ht

/-- The graph of a body without cycles is made, or some assignment in it is to something else than
    a variable or a field. -/
theorem Acyclic.ofBody_answers {body : StmtId} (h : p.Acyclic (.stmt body)) :
    (∃ g, Graph.ofBody p body = .ok (.ok g)) ∨
      ∃ e z t target, p.Inside (.stmt body) (.expr e) ∧ p.exprs.get? e = some z ∧ t ∈ z.targets ∧
        p.exprs.get? t = some target ∧ target.namedVar = none ∧
        Graph.ofBody p body = .ok (.error (.badTarget target)) := by
  obtain ⟨ls, le, hspans⟩ := h.exists_stmtSpans
  refine (hspans.ofBody_answers (fun target => ∃ e z t, p.Inside (.stmt body) (.expr e) ∧
    p.exprs.get? e = some z ∧ t ∈ z.targets ∧ p.exprs.get? t = some target ∧
    target.namedVar = none) fun s hs st hst e he => ?_).imp_right ?_
  · obtain ⟨b, hb, hin⟩ := hspans.exists_inside hs
    obtain ⟨l, hl, _⟩ := hspans.exists_spans (hspans.mem_of_mem_exprs hs hst he)
    refine hl.operations_answers _ (fun o ho z hz t ht y hy hnamed => ?_) e
      (hl.mem_of_mem_roots (List.mem_singleton_self e))
    obtain ⟨_, hroot, hin'⟩ := hl.exists_inside ho
    rw [List.mem_singleton.1 hroot] at hin'
    rw [List.mem_singleton.1 hb] at hin
    exact ⟨o, z, t, (hin.expr hst he).trans hin', hz, ht, hy, hnamed⟩
  · rintro ⟨target, ⟨e, z, t, hin, hz, ht, htarget, hnamed⟩, hbody⟩
    exact ⟨e, z, t, target, hin, hz, ht, htarget, hnamed, hbody⟩

/-- The graph of a body without cycles is made if and only if every assignment in it is to a
    variable or a field. -/
theorem Acyclic.exists_ofBody_iff {body : StmtId} (h : p.Acyclic (.stmt body)) :
    (∃ g, Graph.ofBody p body = .ok (.ok g)) ↔ p.AssignsPlaces (.stmt body) := by
  constructor
  · rintro ⟨g, hg⟩ e z hin hz t ht
    obtain ⟨_, ns, _, _, _, _, hlaid, _⟩ := Graph.ofBody_laidOut hg
    obtain ⟨ls, le, hspans⟩ := h.exists_stmtSpans
    have he : e ∈ le := hin.listed hspans (hspans.mem_of_mem_roots (List.mem_singleton_self body))
    obtain ⟨s, hs, st, own, hst, how, hmem, _⟩ := hspans.exists_own he
    obtain ⟨os, hos⟩ := hlaid.exists_spells hspans hs hst
    exact isPlace_of_spells hos how hmem hz ht
  · intro hplaces
    refine h.ofBody_answers.resolve_right ?_
    rintro ⟨e, z, t, target, hin, hz, ht, htarget, hnamed, _⟩
    exact (hplaces e z hin hz t ht).namedVar_ne_none htarget hnamed

end Program

end Dataflow
