import Dataflow.Proofs.Links
import Mathlib.Data.List.Perm.Subperm
import Mathlib.Data.List.Count
import Mathlib.Data.List.Pairwise

/-!
# Tree programs

In a *tree program* every handle is in range, and a statement or expression is held by
one slot at most of those that the method bodies lead to (`Program.IsTree`). The same
can be said by listing: from the bodies on, everything inside them can be listed, each
before its parts, and nothing is listed twice (`Program.IsForest`).

* `Slot`, `Program.held`, `Program.Reachable`: the places that hold handles;
* `Program.IsTree`: tree programs;
* `Walk`: a list of things and everything inside them;
* `Program.IsTree.isForest`, `Program.IsForest.unique`: the two descriptions agree;
* `Program.isTree_of_check`: a program can be checked to be a tree program.
-/

namespace Dataflow

/-- A place that holds a handle to a statement or an expression. -/
inductive Slot where
  | body (m : MethodId)
  /-- A statement inside a statement, by its place among them. -/
  | child (s : StmtId) (i : Nat)
  /-- An expression that a statement owns itself. -/
  | own (s : StmtId) (i : Nat)
  | operand (e : ExprId) (i : Nat)
  deriving DecidableEq

/-- A statement or an expression, by its handle. -/
inductive Piece where
  | stmt (s : StmtId)
  | expr (e : ExprId)
  deriving DecidableEq

/-- The piece that a slot is part of. -/
def Slot.owner : Slot → Option Piece
  | body _ => none
  | child s _ | own s _ => some (.stmt s)
  | operand e _ => some (.expr e)

namespace Program

/-- The piece that a slot holds. -/
def held (p : Program) : Slot → Option Piece
  | .body m => ((p.methods.get? m).bind Method.body).map .stmt
  | .child s i => ((p.stmts.get? s).bind fun st => st.children[i]?).map .stmt
  | .own s i => ((p.stmts.get? s).bind fun st => st.exprs[i]?).map .expr
  | .operand e i => ((p.exprs.get? e).bind fun x => x.operands[i]?).map .expr

/-- The slots that the method bodies lead to. -/
inductive Reachable (p : Program) : Slot → Prop
  | body (m : MethodId) : Reachable p (.body m)
  | inside {a b : Slot} {x : Piece} : Reachable p a → p.held a = some x → b.owner = some x →
    Reachable p b

/-- Every handle in a program names something. -/
structure InRange (p : Program) : Prop where
  params : ∀ m decl, p.methods.get? m = some decl → ∀ v ∈ decl.params, v.index < p.vars.size
  body : ∀ m decl s, p.methods.get? m = some decl → decl.body = some s → s.index < p.stmts.size
  children : ∀ s st, p.stmts.get? s = some st → ∀ t ∈ st.children, t.index < p.stmts.size
  exprs : ∀ s st, p.stmts.get? s = some st → ∀ e ∈ st.exprs, e.index < p.exprs.size
  declared : ∀ s v init, p.stmts.get? s = some (.declare v init) → v.index < p.vars.size
  operands : ∀ e x, p.exprs.get? e = some x → ∀ o ∈ x.operands, o.index < p.exprs.size
  named : ∀ e x v, p.exprs.get? e = some x → x.namedVar = some v → v.index < p.vars.size
  callee : ∀ e m receiver args, p.exprs.get? e = some (.call m receiver args) →
    m.index < p.methods.size

/-- A program without sharing: no piece is held by two slots that the bodies lead to. And the
    fields of objects are declared as fields. -/
structure IsTree (p : Program) : Prop where
  inRange : p.InRange
  unique : ∀ a b x, p.Reachable a → p.Reachable b → p.held a = some x → p.held b = some x → a = b
  fields : ∀ e object v, p.exprs.get? e = some (.field object v) →
    ∃ decl, p.vars.get? v = some decl ∧ decl.kind = .field

/-- The pieces that a piece is made of: of a statement, its own expressions, then the
    statements inside it; of an expression, its operands. -/
def parts (p : Program) : Piece → Option (List Piece)
  | .stmt s => (p.stmts.get? s).map fun st => st.exprs.map .expr ++ st.children.map .stmt
  | .expr e => (p.exprs.get? e).map fun x => x.operands.map .expr

/-- The bodies of methods. -/
def roots (p : Program) : List Piece := p.bodies.map fun (_, s) => .stmt s

end Program

/-- A list of pieces, and the list of all pieces inside them, each before its parts. -/
inductive Walk (p : Program) : List Piece → List Piece → Prop
  | nil : Walk p [] []
  | cons {x : Piece} {xs ys inner rest : List Piece} : p.parts x = some ys → Walk p ys inner →
    Walk p xs rest → Walk p (x :: xs) (x :: (inner ++ rest))

/-- Everything in the bodies of methods can be listed, and nothing is listed twice. -/
def Program.IsForest (p : Program) : Prop := ∃ all, Walk p p.roots all ∧ all.Nodup

/-! ### Slots and parts -/

theorem nodup_of_getElem?_inj {α : Type} {l : List α}
    (h : ∀ (i j : Nat) (x : α), l[i]? = some x → l[j]? = some x → i = j) : l.Nodup := by
  rw [List.nodup_iff_getElem?_ne_getElem?]
  intro i j hij hj heq
  have hx := List.getElem?_eq_getElem hj
  exact absurd (h i j _ (heq.trans hx) hx) (Nat.ne_of_lt hij)

/-- What is in one of several lists only occurs in all of them together as often as that
    list does, if it occurs there once at most. -/
theorem count_flatMap_le {α β : Type} [DecidableEq α] [DecidableEq β] {l : List α} {f : α → List β}
    {x : β} {y : α} (hother : ∀ z ∈ l, x ∈ f z → z = y) (hone : (f y).count x ≤ 1) :
    (l.flatMap f).count x ≤ l.count y := by
  induction l with
  | nil => simp
  | cons z l ih =>
    have ih := ih fun w hw => hother w (List.mem_cons_of_mem _ hw)
    rw [List.flatMap_cons, List.count_append]
    by_cases hz : z = y
    · subst hz
      rw [List.count_cons_self]
      omega
    · have hzero : (f z).count x = 0 :=
        List.count_eq_zero.2 fun hx => hz (hother z List.mem_cons_self hx)
      rw [List.count_cons_of_ne hz]
      omega

/-- Different handles of slots are no more than there are slots. -/
theorem Arena.length_le_size {name : String} {α : Type} {a : Arena name α}
    {l : List (Handle name)} (hl : l.Nodup) (hlt : ∀ h ∈ l, h.index < a.size) :
    l.length ≤ a.size := by
  have hle := (hl.subperm fun h hh => mem_handles.2 (hlt h hh)).length_le
  rwa [handles, List.length_map, List.length_range] at hle

namespace Program

variable {p : Program}

theorem mem_bodies_iff {m : MethodId} {s : StmtId} :
    (m, s) ∈ p.bodies ↔ (p.methods.get? m).bind Method.body = some s := by
  simp only [bodies, List.mem_filterMap, Option.map_eq_some_iff, Prod.exists, Prod.mk.injEq,
    Option.bind_eq_some_iff, Arena.mem_entries]
  constructor
  · rintro ⟨_, decl, hdecl, _, hbody, rfl, rfl⟩
    exact ⟨decl, hdecl, hbody⟩
  · rintro ⟨decl, hdecl, hbody⟩
    exact ⟨m, decl, hdecl, s, hbody, rfl, rfl⟩

theorem map_fst_bodies_nodup (p : Program) : (p.bodies.map Prod.fst).Nodup := by
  have hsub : (p.bodies.map Prod.fst).Sublist (p.methods.entries.map Prod.fst) := by
    rw [bodies]
    induction p.methods.entries with
    | nil => exact .slnil
    | cons entry entries ih =>
      obtain ⟨m, decl⟩ := entry
      cases hbody : decl.body with
      | none => simpa [hbody] using ih.cons m
      | some s => simpa [hbody] using ih.cons_cons m
  rw [Arena.map_fst_entries] at hsub
  exact p.methods.handles_nodup.sublist hsub

/-- What is part of a piece is held by a slot of it. -/
theorem exists_slot_of_mem_parts {x y : Piece} {ys : List Piece} (h : p.parts x = some ys)
    (hy : y ∈ ys) : ∃ a, a.owner = some x ∧ p.held a = some y := by
  cases x with
  | stmt s =>
    obtain ⟨st, hst, rfl⟩ := Option.map_eq_some_iff.1 h
    rcases List.mem_append.1 hy with hy | hy
    · obtain ⟨e, he, rfl⟩ := List.mem_map.1 hy
      obtain ⟨i, hi⟩ := List.mem_iff_getElem?.1 he
      exact ⟨.own s i, rfl, by simp [held, hst, hi]⟩
    · obtain ⟨t, ht, rfl⟩ := List.mem_map.1 hy
      obtain ⟨i, hi⟩ := List.mem_iff_getElem?.1 ht
      exact ⟨.child s i, rfl, by simp [held, hst, hi]⟩
  | expr e =>
    obtain ⟨x, hx, rfl⟩ := Option.map_eq_some_iff.1 h
    obtain ⟨o, ho, rfl⟩ := List.mem_map.1 hy
    obtain ⟨i, hi⟩ := List.mem_iff_getElem?.1 ho
    exact ⟨.operand e i, rfl, by simp [held, hx, hi]⟩

/-- What a slot of a piece holds is part of the piece. -/
theorem mem_parts_of_held {x y : Piece} {a : Slot} (ha : a.owner = some x)
    (hy : p.held a = some y) : ∃ ys, p.parts x = some ys ∧ y ∈ ys := by
  cases a with
  | body m => cases ha
  | child s i =>
    cases ha
    obtain ⟨t, ht, rfl⟩ := Option.map_eq_some_iff.1 hy
    obtain ⟨st, hst, ht⟩ := Option.bind_eq_some_iff.1 ht
    refine ⟨_, by rw [parts, hst]; rfl, List.mem_append_right _ (List.mem_map_of_mem ?_)⟩
    exact List.mem_of_getElem? ht
  | own s i =>
    cases ha
    obtain ⟨e, he, rfl⟩ := Option.map_eq_some_iff.1 hy
    obtain ⟨st, hst, he⟩ := Option.bind_eq_some_iff.1 he
    refine ⟨_, by rw [parts, hst]; rfl, List.mem_append_left _ (List.mem_map_of_mem ?_)⟩
    exact List.mem_of_getElem? he
  | operand e i =>
    cases ha
    obtain ⟨o, ho, rfl⟩ := Option.map_eq_some_iff.1 hy
    obtain ⟨x, hx, ho⟩ := Option.bind_eq_some_iff.1 ho
    refine ⟨_, by rw [parts, hx]; rfl, List.mem_map_of_mem ?_⟩
    exact List.mem_of_getElem? ho

end Program

/-! ### Walks -/

namespace Walk

variable {p : Program} {xs ys all : List Piece} {x y : Piece}

/-- The parts of a piece, if there is such a piece. -/
def partsOf (p : Program) (x : Piece) : List Piece := (p.parts x).getD []

/-- What is listed is either one of the pieces to start with or part of one that is listed. -/
theorem perm (h : Walk p xs all) : all.Perm (xs ++ all.flatMap (partsOf p)) := by
  induction h with
  | nil => exact .nil
  | @cons x xs ys inner rest hx _ _ ih₁ ih₂ =>
    have hflat : (x :: (inner ++ rest)).flatMap (partsOf p) =
        ys ++ (inner.flatMap (partsOf p) ++ rest.flatMap (partsOf p)) := by
      simp [partsOf, hx]
    rw [hflat, List.cons_append]
    refine List.Perm.cons x ((ih₁.append ih₂).trans ?_)
    rw [← List.append_assoc ys]
    exact List.perm_append_comm_assoc _ xs _

/-- Where nothing is part of listed pieces twice, it is part of one of them at most. -/
theorem eq_of_mem_partsOf (hflat : (all.flatMap (partsOf p)).Nodup) {y z : Piece} (hy : y ∈ all)
    (hz : z ∈ all) (hxy : x ∈ partsOf p y) (hxz : x ∈ partsOf p z) : y = z := by
  by_contra hne
  have : Std.Symm (Function.onFun List.Disjoint (partsOf p)) := ⟨fun _ _ h _ ha hb => h hb ha⟩
  exact (List.nodup_flatMap.1 hflat).2.forall hy hz hne hxy hxz

/-- What is listed once is part of one listed piece at most. -/
theorem holder_unique (h : Walk p xs all) (hall : all.Nodup) {y z : Piece} (hy : y ∈ all)
    (hz : z ∈ all) (hxy : x ∈ partsOf p y) (hxz : x ∈ partsOf p z) : y = z :=
  eq_of_mem_partsOf (List.nodup_append.1 (h.perm.nodup_iff.1 hall)).2.1 hy hz hxy hxz

theorem mem_of_mem_roots (h : Walk p xs all) (hx : x ∈ xs) : x ∈ all :=
  h.perm.mem_iff.2 (List.mem_append_left _ hx)

theorem mem_of_mem_parts (h : Walk p xs all) (hx : x ∈ all) (hys : p.parts x = some ys)
    (hy : y ∈ ys) : y ∈ all := by
  refine h.perm.mem_iff.2 (List.mem_append_right _ (List.mem_flatMap.2 ⟨x, hx, ?_⟩))
  rw [partsOf, hys]
  exact hy

theorem exists_parts (h : Walk p xs all) (hx : x ∈ all) : ∃ ys, p.parts x = some ys := by
  induction h with
  | nil => cases hx
  | cons hparts _ _ ih₁ ih₂ =>
    rcases List.mem_cons.1 hx with rfl | hx
    · exact ⟨_, hparts⟩
    · exact (List.mem_append.1 hx).elim ih₁ ih₂

end Walk

namespace Program

variable {p : Program}

theorem held_body_iff {m : MethodId} {s : StmtId} :
    p.held (.body m) = some (.stmt s) ↔ (m, s) ∈ p.bodies := by
  rw [mem_bodies_iff, held]
  cases (p.methods.get? m).bind Method.body <;> simp

theorem held_body_mem_roots {m : MethodId} {x : Piece} (h : p.held (.body m) = some x) :
    x ∈ p.roots := by
  obtain ⟨s, _, rfl⟩ := Option.map_eq_some_iff.1 h
  exact List.mem_map.2 ⟨(m, s), held_body_iff.1 h, rfl⟩

/-- Everything that the bodies lead to is listed. -/
theorem Reachable.held_mem {all : List Piece} (hw : Walk p p.roots all) {a : Slot}
    (h : p.Reachable a) {x : Piece} (hx : p.held a = some x) : x ∈ all := by
  induction h generalizing x with
  | body m => exact hw.mem_of_mem_roots (held_body_mem_roots hx)
  | inside _ ha hb ih =>
    obtain ⟨ys, hys, hmem⟩ := mem_parts_of_held hb hx
    exact hw.mem_of_mem_parts (ih ha) hys hmem

/-- The piece that a slot belongs to is listed, if the bodies lead to the slot. -/
theorem Reachable.owner_mem {all : List Piece} (hw : Walk p p.roots all) {a : Slot}
    (h : p.Reachable a) {x : Piece} (hx : a.owner = some x) : x ∈ all := by
  cases h with
  | body m => cases hx
  | inside ha hheld howner =>
    rw [hx] at howner
    cases howner
    exact ha.held_mem hw hheld

/-- Two slots of one piece that hold the same are one, if the parts of the piece differ. -/
theorem slot_eq_of_owner_eq {a b : Slot} {x y : Piece} {ys : List Piece}
    (hys : p.parts x = some ys) (hnodup : ys.Nodup) (ha : a.owner = some x) (hb : b.owner = some x)
    (hay : p.held a = some y) (hby : p.held b = some y) : a = b := by
  -- Two places of one list that hold the same are one place.
  have hplace : ∀ {α : Type} {l : List α} {i j : Nat} {z : α}, l.Nodup → l[i]? = some z →
      l[j]? = some z → i = j := by
    intro α l i j z hl hi hj
    exact (List.getElem?_inj (List.getElem?_eq_some_iff.1 hi).1 hl).1 (hi.trans hj.symm)
  cases x with
  | stmt s =>
    obtain ⟨st, hst, rfl⟩ := Option.map_eq_some_iff.1 hys
    rw [List.nodup_append] at hnodup
    have hexprs := List.Nodup.of_map _ hnodup.1
    have hchildren := List.Nodup.of_map _ hnodup.2.1
    cases a <;> cases b <;> simp only [Slot.owner, Option.some.injEq, reduceCtorEq,
      Piece.stmt.injEq] at ha hb <;> subst ha <;> subst hb <;>
      simp only [held, hst, Option.bind_some, Option.map_eq_some_iff] at hay hby <;>
      obtain ⟨_, hi, rfl⟩ := hay <;> obtain ⟨_, hj, heq⟩ := hby <;> cases heq
    · rw [hplace hchildren hi hj]
    · rw [hplace hexprs hi hj]
  | expr e =>
    obtain ⟨z, hz, rfl⟩ := Option.map_eq_some_iff.1 hys
    have hoperands := List.Nodup.of_map _ hnodup
    cases a <;> cases b <;> simp only [Slot.owner, Option.some.injEq, reduceCtorEq,
      Piece.expr.injEq] at ha hb
    subst ha
    subst hb
    simp only [held, hz, Option.bind_some, Option.map_eq_some_iff] at hay hby
    obtain ⟨_, hi, rfl⟩ := hay
    obtain ⟨_, hj, heq⟩ := hby
    cases heq
    rw [hplace hoperands hi hj]

/-- Where the bodies and the parts of pieces all differ, slots of these pieces that hold the same
    are one. -/
theorem slot_eq_of_held_eq {all : List Piece} {a b : Slot} {x : Piece}
    (hnodup : (p.roots ++ all.flatMap (Walk.partsOf p)).Nodup) (ha : ∀ y, a.owner = some y → y ∈ all)
    (hb : ∀ y, b.owner = some y → y ∈ all) (hax : p.held a = some x) (hbx : p.held b = some x) :
    a = b := by
  obtain ⟨hroots, hflat, hapart⟩ := List.nodup_append.1 hnodup
  obtain ⟨hparts, _⟩ := List.nodup_flatMap.1 hflat
  -- A slot inside a piece holds one of its parts.
  have hinside : ∀ {c : Slot} {y : Piece}, c.owner = some y → p.held c = some x →
      x ∈ Walk.partsOf p y := by
    intro c y hy hcx
    obtain ⟨ys, hys, hmem⟩ := mem_parts_of_held hy hcx
    rw [Walk.partsOf, hys]
    exact hmem
  cases hya : a.owner with
  | none =>
    cases hyb : b.owner with
    | none =>
      cases a <;> cases hya
      cases b <;> cases hyb
      obtain ⟨s, _, rfl⟩ := Option.map_eq_some_iff.1 hax
      have heq := List.inj_on_of_nodup_map hroots (held_body_iff.1 hax) (held_body_iff.1 hbx) rfl
      rw [(Prod.mk.inj heq).1]
    | some y =>
      cases a <;> cases hya
      exact absurd rfl (hapart x (held_body_mem_roots hax) x
        (List.mem_flatMap.2 ⟨y, hb y hyb, hinside hyb hbx⟩))
  | some y =>
    cases hyb : b.owner with
    | none =>
      cases b <;> cases hyb
      exact absurd rfl (hapart x (held_body_mem_roots hbx) x
        (List.mem_flatMap.2 ⟨y, ha y hya, hinside hya hax⟩))
    | some z =>
      obtain rfl := Walk.eq_of_mem_partsOf hflat (ha y hya) (hb z hyb) (hinside hya hax)
        (hinside hyb hbx)
      obtain ⟨ys, hys, _⟩ := mem_parts_of_held hya hax
      refine slot_eq_of_owner_eq hys ?_ hya hyb hax hbx
      have hnodup := hparts y (ha y hya)
      rwa [Walk.partsOf, hys] at hnodup

/-- Where nothing is listed twice, no piece is held twice. -/
theorem IsForest.unique (h : p.IsForest) {a b : Slot} {x : Piece} (ha : p.Reachable a)
    (hb : p.Reachable b) (hax : p.held a = some x) (hbx : p.held b = some x) : a = b := by
  obtain ⟨all, hw, hnodup⟩ := h
  exact slot_eq_of_held_eq (hw.perm.nodup_iff.1 hnodup) (fun _ => ha.owner_mem hw)
    (fun _ => hb.owner_mem hw) hax hbx

end Program

/-! ### Levels -/

/-- The slots that the method bodies lead to in so many steps. -/
inductive ReachableIn (p : Program) : Nat → Slot → Prop
  | body (m : MethodId) : ReachableIn p 0 (.body m)
  | inside {n : Nat} {a b : Slot} {x : Piece} : ReachableIn p n a → p.held a = some x →
    b.owner = some x → ReachableIn p (n + 1) b

namespace Program

variable {p : Program}

theorem Reachable.exists_level {a : Slot} (h : p.Reachable a) : ∃ n, ReachableIn p n a := by
  induction h with
  | body m => exact ⟨0, .body m⟩
  | inside _ hx hb ih =>
    obtain ⟨n, hn⟩ := ih
    exact ⟨n + 1, .inside hn hx hb⟩

end Program

namespace ReachableIn

variable {p : Program} {n k : Nat} {a b : Slot} {x : Piece}

theorem reachable (h : ReachableIn p n a) : p.Reachable a := by
  induction h with
  | body m => exact .body m
  | inside _ hx hb ih => exact .inside ih hx hb

/-- A slot is reached in one number of steps only. -/
theorem level_eq (hp : p.IsTree) (h : ReachableIn p n a) (h' : ReachableIn p k a) : n = k := by
  induction h generalizing k with
  | body m =>
    cases h' with
    | body => rfl
    | inside _ _ hb => cases hb
  | inside ha hx hb ih =>
    cases h' with
    | body => cases hb
    | inside ha' hx' hb' =>
      rw [hb] at hb'
      cases hb'
      obtain rfl := hp.unique _ _ _ ha.reachable ha'.reachable hx hx'
      rw [ih ha']

/-- The pieces passed on the way to a slot all differ, as each has a level of its own. -/
theorem exists_path (hp : p.IsTree) (h : ReachableIn p n a) : ∃ path : List Piece,
    path.length = n ∧ path.Nodup ∧
      ∀ y ∈ path, ∃ k < n, ∃ b, ReachableIn p k b ∧ p.held b = some y := by
  induction h with
  | body m => exact ⟨[], rfl, .nil, by simp⟩
  | @inside n a b x ha hx _ ih =>
    obtain ⟨path, hlen, hnodup, hlevel⟩ := ih
    refine ⟨x :: path, by rw [List.length_cons, hlen], List.nodup_cons.2 ⟨fun hmem => ?_, hnodup⟩, ?_⟩
    · obtain ⟨k, hk, c, hc, hcx⟩ := hlevel x hmem
      obtain rfl := hp.unique _ _ _ ha.reachable hc.reachable hx hcx
      exact absurd (ha.level_eq hp hc) (Nat.ne_of_gt hk)
    · intro y hy
      rcases List.mem_cons.1 hy with rfl | hy
      · exact ⟨n, Nat.lt_succ_self n, a, ha, hx⟩
      · obtain ⟨k, hk, hc⟩ := hlevel y hy
        exact ⟨k, Nat.lt_succ_of_lt hk, hc⟩

end ReachableIn

namespace Walk

variable {p : Program}

/-- Whatever is listed from the bodies on is held by a slot that they lead to. -/
theorem exists_slot_of_roots {xs all : List Piece} (h : Walk p xs all)
    (hroots : ∀ x ∈ xs, ∃ a, p.Reachable a ∧ p.held a = some x) :
    ∀ x ∈ all, ∃ a, p.Reachable a ∧ p.held a = some x := by
  induction h with
  | nil => simp
  | @cons x xs ys inner rest hx _ _ ih₁ ih₂ =>
    rw [List.forall_mem_cons] at hroots
    obtain ⟨⟨a, ha, hax⟩, hroots⟩ := hroots
    have hinner := ih₁ fun y hy => by
      obtain ⟨b, hb, hby⟩ := Program.exists_slot_of_mem_parts hx hy
      exact ⟨b, .inside ha hax hb, hby⟩
    rw [List.forall_mem_cons, List.forall_mem_append]
    exact ⟨⟨a, ha, hax⟩, hinner, ih₂ hroots⟩

theorem exists_slot {all : List Piece} (h : Walk p p.roots all) {x : Piece} (hx : x ∈ all) :
    ∃ a, p.Reachable a ∧ p.held a = some x := by
  refine h.exists_slot_of_roots (fun y hy => ?_) x hx
  obtain ⟨⟨m, s⟩, hm, rfl⟩ := List.mem_map.1 hy
  exact ⟨.body m, .body m, Program.held_body_iff.2 hm⟩

theorem append {xs ys l l' : List Piece} (h : Walk p xs l) (h' : Walk p ys l') :
    Walk p (xs ++ ys) (l ++ l') := by
  induction h with
  | nil => exact h'
  | cons hx h _ _ ih =>
    rw [List.cons_append, List.cons_append, List.append_assoc]
    exact .cons hx h ih

theorem exists_of_forall {xs : List Piece} (h : ∀ x ∈ xs, ∃ l, Walk p [x] l) :
    ∃ l, Walk p xs l := by
  induction xs with
  | nil => exact ⟨[], .nil⟩
  | cons x xs ih =>
    obtain ⟨l, hl⟩ := h x List.mem_cons_self
    obtain ⟨l', hl'⟩ := ih fun y hy => h y (List.mem_cons_of_mem _ hy)
    exact ⟨l ++ l', hl.append hl'⟩

end Walk

namespace Program

variable {p : Program}

/-- All pieces that there are. -/
def pieces (p : Program) : List Piece := p.stmts.handles.map .stmt ++ p.exprs.handles.map .expr

/-- What a slot holds is there. -/
theorem InRange.held_mem_pieces (hp : p.InRange) {a : Slot} {x : Piece} (hx : p.held a = some x) :
    x ∈ p.pieces := by
  cases a with
  | body m =>
    obtain ⟨s, hs, rfl⟩ := Option.map_eq_some_iff.1 hx
    obtain ⟨decl, hdecl, hs⟩ := Option.bind_eq_some_iff.1 hs
    exact List.mem_append_left _
      (List.mem_map_of_mem (Arena.mem_handles.2 (hp.body m decl s hdecl hs)))
  | child s i =>
    obtain ⟨t, ht, rfl⟩ := Option.map_eq_some_iff.1 hx
    obtain ⟨st, hst, ht⟩ := Option.bind_eq_some_iff.1 ht
    exact List.mem_append_left _ (List.mem_map_of_mem
      (Arena.mem_handles.2 (hp.children s st hst t (List.mem_of_getElem? ht))))
  | own s i =>
    obtain ⟨e, he, rfl⟩ := Option.map_eq_some_iff.1 hx
    obtain ⟨st, hst, he⟩ := Option.bind_eq_some_iff.1 he
    exact List.mem_append_right _ (List.mem_map_of_mem
      (Arena.mem_handles.2 (hp.exprs s st hst e (List.mem_of_getElem? he))))
  | operand e i =>
    obtain ⟨o, ho, rfl⟩ := Option.map_eq_some_iff.1 hx
    obtain ⟨z, hz, ho⟩ := Option.bind_eq_some_iff.1 ho
    exact List.mem_append_right _ (List.mem_map_of_mem
      (Arena.mem_handles.2 (hp.operands e z hz o (List.mem_of_getElem? ho))))

theorem exists_parts_of_mem_pieces {x : Piece} (hx : x ∈ p.pieces) : ∃ ys, p.parts x = some ys := by
  rcases List.mem_append.1 hx with hx | hx <;> obtain ⟨h, hh, rfl⟩ := List.mem_map.1 hx <;>
    obtain ⟨y, hy⟩ := Arena.exists_get?_of_lt (Arena.mem_handles.1 hh) <;>
    exact ⟨_, by rw [parts, hy]; rfl⟩

namespace IsTree

variable (hp : p.IsTree)
include hp

/-- No way from the bodies to a slot that holds something passes more pieces than there are. -/
theorem level_lt {n : Nat} {a : Slot} {x : Piece} (h : ReachableIn p n a) (hx : p.held a = some x) :
    n < p.pieces.length := by
  -- Some slot of the piece is reached in one more step, past one more piece.
  obtain ⟨b, hb⟩ : ∃ b : Slot, b.owner = some x := by
    cases x with
    | stmt s => exact ⟨.own s 0, rfl⟩
    | expr e => exact ⟨.operand e 0, rfl⟩
  obtain ⟨path, hlen, hnodup, hlevel⟩ := (ReachableIn.inside h hx hb).exists_path hp
  have hsub : path ⊆ p.pieces := fun y hy => by
    obtain ⟨_, _, c, _, hc⟩ := hlevel y hy
    exact hp.inRange.held_mem_pieces hc
  have hle := (hnodup.subperm hsub).length_le
  omega

theorem exists_walk {n : Nat} {a : Slot} {x : Piece} (h : ReachableIn p n a)
    (hx : p.held a = some x) : ∃ l, Walk p [x] l := by
  -- Induction on how far the level is from the largest one.
  obtain ⟨d, hd⟩ : ∃ d, p.pieces.length - n = d := ⟨_, rfl⟩
  induction d generalizing n a x with
  | zero =>
    have := hp.level_lt h hx
    omega
  | succ d ih =>
    obtain ⟨ys, hys⟩ := exists_parts_of_mem_pieces (hp.inRange.held_mem_pieces hx)
    have hparts : ∀ y ∈ ys, ∃ l, Walk p [y] l := fun y hy => by
      obtain ⟨b, hb, hby⟩ := exists_slot_of_mem_parts hys hy
      exact ih (.inside h hx hb) hby (by omega)
    obtain ⟨inner, hinner⟩ := Walk.exists_of_forall hparts
    exact ⟨_, .cons hys hinner .nil⟩

/-- The parts of a piece that the bodies lead to all differ. -/
theorem parts_nodup {a : Slot} {x : Piece} {ys : List Piece} (ha : p.Reachable a)
    (hx : p.held a = some x) (hys : p.parts x = some ys) : ys.Nodup := by
  -- The places of a part would be slots that hold the same.
  have hslots : ∀ {b c : Slot} {y : Piece}, b.owner = some x → c.owner = some x →
      p.held b = some y → p.held c = some y → b = c := fun hb hc hby hcy =>
    hp.unique _ _ _ (.inside ha hx hb) (.inside ha hx hc) hby hcy
  cases x with
  | stmt s =>
    obtain ⟨st, hst, rfl⟩ := Option.map_eq_some_iff.1 hys
    have hexprs : st.exprs.Nodup := nodup_of_getElem?_inj fun i j e hi hj =>
      (Slot.own.inj (hslots (b := .own s i) (c := .own s j) (y := .expr e) rfl rfl
        (by simp [held, hst, hi]) (by simp [held, hst, hj]))).2
    have hchildren : st.children.Nodup := nodup_of_getElem?_inj fun i j t hi hj =>
      (Slot.child.inj (hslots (b := .child s i) (c := .child s j) (y := .stmt t) rfl rfl
        (by simp [held, hst, hi]) (by simp [held, hst, hj]))).2
    refine List.nodup_append.2 ⟨hexprs.map fun _ _ h => Piece.expr.inj h,
      hchildren.map fun _ _ h => Piece.stmt.inj h, ?_⟩
    rintro y hy z hz rfl
    obtain ⟨_, _, rfl⟩ := List.mem_map.1 hy
    obtain ⟨_, _, hz⟩ := List.mem_map.1 hz
    cases hz
  | expr e =>
    obtain ⟨z, hz, rfl⟩ := Option.map_eq_some_iff.1 hys
    have hoperands : z.operands.Nodup := nodup_of_getElem?_inj fun i j o hi hj =>
      (Slot.operand.inj (hslots (b := .operand e i) (c := .operand e j) (y := .expr o) rfl rfl
        (by simp [held, hz, hi]) (by simp [held, hz, hj]))).2
    exact hoperands.map fun _ _ h => Piece.expr.inj h

theorem roots_nodup : p.roots.Nodup := by
  refine List.Nodup.map_on ?_ (List.Nodup.of_map _ p.map_fst_bodies_nodup)
  rintro ⟨m, s⟩ hm ⟨m', s'⟩ hm' heq
  cases heq
  have hslot := hp.unique _ _ _ (.body m) (.body m') (held_body_iff.2 hm) (held_body_iff.2 hm')
  cases hslot
  rfl

/-- A listed piece that something is part of is the one whose slot holds it. -/
theorem owner_of_mem_parts {all : List Piece} (hw : Walk p p.roots all) {a : Slot} {x y : Piece}
    (ha : p.Reachable a) (hx : p.held a = some x) (hy : y ∈ all) (hmem : x ∈ Walk.partsOf p y) :
    a.owner = some y := by
  obtain ⟨ys, hys⟩ := hw.exists_parts hy
  rw [Walk.partsOf, hys] at hmem
  obtain ⟨b, hb, hby⟩ := hw.exists_slot hy
  obtain ⟨c, hc, hcx⟩ := exists_slot_of_mem_parts hys hmem
  rw [hp.unique _ _ _ ha (.inside hb hby hc) hx hcx, hc]

theorem owner_of_mem_roots {a : Slot} {x : Piece} (ha : p.Reachable a) (hx : p.held a = some x)
    (hmem : x ∈ p.roots) : a.owner = none := by
  obtain ⟨⟨m, s⟩, hm, rfl⟩ := List.mem_map.1 hmem
  rw [hp.unique _ _ _ ha (.body m) hx (held_body_iff.2 hm)]
  rfl

/-- Everything is listed once at most. -/
theorem count_le_one {all : List Piece} (hw : Walk p p.roots all) {n : Nat} {a : Slot} {x : Piece}
    (h : ReachableIn p n a) (hx : p.held a = some x) : all.count x ≤ 1 := by
  rw [hw.perm.count_eq, List.count_append]
  induction h generalizing x with
  | body m =>
    have hroots := List.nodup_iff_count_le_one.1 hp.roots_nodup x
    have hflat : (all.flatMap (Walk.partsOf p)).count x = 0 := by
      rw [List.count_eq_zero, List.mem_flatMap]
      rintro ⟨y, hy, hmem⟩
      cases hp.owner_of_mem_parts hw (.body m) hx hy hmem
    omega
  | @inside n a b y ha hy hb ih =>
    have hreach : p.Reachable b := .inside ha.reachable hy hb
    have hroots : p.roots.count x = 0 := by
      rw [List.count_eq_zero]
      intro hmem
      rw [hp.owner_of_mem_roots hreach hx hmem] at hb
      cases hb
    obtain ⟨ys, hys, _⟩ := mem_parts_of_held hb hx
    have hparts : (Walk.partsOf p y).count x ≤ 1 := by
      rw [Walk.partsOf, hys]
      exact List.nodup_iff_count_le_one.1 (hp.parts_nodup ha.reachable hy hys) x
    have hflat : (all.flatMap (Walk.partsOf p)).count x ≤ all.count y :=
      count_flatMap_le (fun z hz hmem => Option.some.inj <|
        (hp.owner_of_mem_parts hw hreach hx hz hmem).symm.trans hb) hparts
    have ih := ih hy
    rw [← List.count_append, ← hw.perm.count_eq] at ih
    omega

/-- In a tree program, everything in the bodies can be listed, each thing once. -/
theorem isForest : p.IsForest := by
  obtain ⟨all, hw⟩ : ∃ all, Walk p p.roots all := Walk.exists_of_forall fun x hx => by
    obtain ⟨⟨m, s⟩, hm, rfl⟩ := List.mem_map.1 hx
    exact hp.exists_walk (.body m) (held_body_iff.2 hm)
  refine ⟨all, hw, List.nodup_iff_count_le_one.2 fun x => ?_⟩
  by_cases hx : x ∈ all
  · obtain ⟨a, ha, hax⟩ := hw.exists_slot hx
    obtain ⟨n, hn⟩ := ha.exists_level
    exact hp.count_le_one hw hn hax
  · rw [List.count_eq_zero.2 hx]
    exact Nat.zero_le 1

end IsTree

end Program

/-! ### Checking a program -/

namespace Program

/-- All pieces inside pieces, each before its parts, if they are no more than `depth` levels deep. -/
def walk (p : Program) : (depth : Nat) → List Piece → Option (List Piece)
  | _, [] => some []
  | 0, _ :: _ => none
  | depth + 1, x :: xs => do
    let inner ← walk p depth (← p.parts x)
    let rest ← walk p depth xs
    return x :: (inner ++ rest)

theorem walk_of_eq_some {p : Program} {depth : Nat} {xs all : List Piece}
    (h : p.walk depth xs = some all) : Walk p xs all := by
  induction depth generalizing xs all with
  | zero =>
    cases xs with
    | nil =>
      cases h
      exact .nil
    | cons x xs => cases h
  | succ depth ih =>
    cases xs with
    | nil =>
      cases h
      exact .nil
    | cons x xs =>
      obtain ⟨ys, hys, h⟩ := Option.bind_eq_some_iff.1 h
      obtain ⟨inner, hinner, h⟩ := Option.bind_eq_some_iff.1 h
      obtain ⟨rest, hrest, h⟩ := Option.bind_eq_some_iff.1 h
      cases h
      exact .cons hys (ih hinner) (ih hrest)

/-- Whether the handles that a statement holds name something. -/
def stmtInRange (p : Program) (st : Stmt) : Bool :=
  st.children.all (·.index < p.stmts.size) && st.exprs.all (·.index < p.exprs.size) &&
    match st with
    | .declare v _ => v.index < p.vars.size
    | _ => true

/-- Whether the handles that an expression holds name something, a field if they are meant to. -/
def exprInRange (p : Program) (x : Expr) : Bool :=
  x.operands.all (·.index < p.exprs.size) && x.namedVar.all (·.index < p.vars.size) &&
    match x with
    | .call m _ _ => m.index < p.methods.size
    | .field _ v => (p.vars.get? v).any (·.kind = .field)
    | _ => true

/-- Whether the handles that a method holds name something. -/
def methodInRange (p : Program) (decl : Method) : Bool :=
  decl.params.all (·.index < p.vars.size) && decl.body.all (·.index < p.stmts.size)

/-- Whether a program is a tree program, as far as `depth` levels tell. -/
def checksAsTree (p : Program) (depth : Nat) : Bool :=
  p.methods.values.all p.methodInRange && p.stmts.values.all p.stmtInRange &&
    p.exprs.values.all p.exprInRange && (p.walk depth p.roots).any fun all => decide all.Nodup

theorem mem_values {name : String} {α : Type} {a : Arena name α} {h : Handle name} {x : α}
    (hx : a.get? h = some x) : x ∈ a.values :=
  Array.mem_toList_iff.2 (Array.mem_of_getElem? hx)

/-- A program that passes the check is a tree program. -/
theorem isTree_of_check {p : Program} {depth : Nat} (h : p.checksAsTree depth = true) : p.IsTree := by
  simp only [checksAsTree, Bool.and_eq_true, List.all_eq_true, methodInRange, stmtInRange,
    exprInRange, decide_eq_true_eq, Option.all_eq_true, Option.any_eq_true] at h
  obtain ⟨⟨⟨hmethods, hstmts⟩, hexprs⟩, all, hall, hnodup⟩ := h
  have hforest : p.IsForest := ⟨all, walk_of_eq_some hall, hnodup⟩
  refine ⟨⟨fun m decl hm v hv => (hmethods decl (mem_values hm)).1 v hv,
    fun m decl s hm hs => (hmethods decl (mem_values hm)).2 s hs,
    fun s st hs t ht => (hstmts st (mem_values hs)).1.1 t ht,
    fun s st hs e he => (hstmts st (mem_values hs)).1.2 e he,
    fun s v init hs => ?_, fun e x he o ho => (hexprs x (mem_values he)).1.1 o ho,
    fun e x v he hv => (hexprs x (mem_values he)).1.2 v hv, fun e m receiver args he => ?_⟩,
    fun a b x ha hb => hforest.unique ha hb, fun e object v he => ?_⟩
  · simpa using (hstmts _ (mem_values hs)).2
  · simpa using (hexprs _ (mem_values he)).2
  · simpa [Option.any_eq_true] using (hexprs _ (mem_values he)).2

end Program

end Dataflow
