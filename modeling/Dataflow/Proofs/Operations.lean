import Dataflow.Graph.Lowering
import Dataflow.Proofs.Spans

/-!
# The operations of expressions

An expression evaluates some of its operands, in order, and then does something of its
own (`Program.emits`). The target of an assignment is not evaluated: only the object is
whose field it is. So the operations of an expression are those of what it evaluates, and
then its own (`operations_eq_ok_iff`).

* `Program.Spells`: the operations of a list of expressions;
* `Emits`: the expressions evaluated for a list of expressions, and their operations;
* `Spans.exists_emits`: where lowering succeeds, all this can be listed;
* `Emits.exprs_subperm`, `Emits.values_subperm`: every operation is that of one expression,
  and every value that is written is written once.
-/

namespace Dataflow

/-! ### Lowering that succeeds -/

/-- A lowering in two parts succeeds if both parts do. -/
theorem Lowered.bind_eq_ok {α β : Type} {x : Lowered α} {f : α → Lowered β} {b : β} :
    ((x >>= f : Lowered β) : Run (Except Error β)) = .ok (.ok b) ↔
      ∃ a, x = (.ok (.ok a) : Run (Except Error α)) ∧
        f a = (.ok (.ok b) : Run (Except Error β)) := by
  constructor
  · intro h
    rcases x with fault | (error | a)
    · cases h
    · cases h
    · exact ⟨a, rfl, h⟩
  · rintro ⟨a, rfl, h⟩
    exact h

theorem Lowered.pure_eq_ok {α : Type} {a b : α} :
    ((pure a : Lowered α) : Run (Except Error α)) = .ok (.ok b) ↔ a = b :=
  ⟨fun h => by cases h; rfl, fun h => h ▸ rfl⟩

/-- A look-up in a lowering succeeds if there is such a slot. -/
theorem Lowered.get_eq_ok {name : String} {α : Type} {a : Arena name α} {h : Handle name} {x : α} :
    ((liftM (a.get h) : Lowered α) : Run (Except Error α)) = .ok (.ok x) ↔ a.get? h = some x := by
  rw [← Arena.get_eq_ok_iff]
  cases a.get h with
  | error fault => constructor <;> intro h <;> cases h
  | ok y => constructor <;> intro h <;> cases h <;> rfl

/-- The operations of a list of expressions, one after the other, given those of each. -/
def SpelledBy (self : ExprId → Lowered (List Operation)) : List ExprId → List Operation → Prop
  | [], os => os = []
  | e :: es, os => ∃ first rest, self e = (.ok (.ok first) : Run (Except Error _)) ∧
    SpelledBy self es rest ∧ os = first ++ rest

/-- The operations of a list of expressions, one after the other. -/
def Program.Spells (p : Program) : List ExprId → List Operation → Prop := SpelledBy p.operations

section Step

variable {p : Program} {self : ExprId → Lowered (List Operation)}

theorem spelledBy_one {e : ExprId} {os : List Operation} :
    SpelledBy self [e] os ↔ self e = (.ok (.ok os) : Run (Except Error _)) := by
  constructor
  · rintro ⟨first, rest, hfirst, rfl, rfl⟩
    rw [List.append_nil]
    exact hfirst
  · exact fun h => ⟨os, [], h, rfl, (List.append_nil os).symm⟩

theorem spelledBy_append {es es' : List ExprId} {os : List Operation} :
    SpelledBy self (es ++ es') os ↔
      ∃ os₁ os₂, SpelledBy self es os₁ ∧ SpelledBy self es' os₂ ∧ os = os₁ ++ os₂ := by
  induction es generalizing os with
  | nil =>
    constructor
    · exact fun h => ⟨[], os, rfl, h, rfl⟩
    · rintro ⟨_, os₂, rfl, h, rfl⟩
      exact h
  | cons e es ih =>
    constructor
    · rintro ⟨first, rest, hfirst, hrest, rfl⟩
      obtain ⟨os₁, os₂, h₁, h₂, rfl⟩ := ih.1 hrest
      exact ⟨first ++ os₁, os₂, ⟨first, os₁, hfirst, h₁, rfl⟩, h₂, (List.append_assoc ..).symm⟩
    · rintro ⟨_, os₂, ⟨first, rest, hfirst, hrest, rfl⟩, h₂, rfl⟩
      exact ⟨first, rest ++ os₂, hfirst, ih.2 ⟨rest, os₂, hrest, h₂, rfl⟩, List.append_assoc ..⟩

theorem spelledBy_iff_mapM {es : List ExprId} {os : List Operation} : SpelledBy self es os ↔
    ∃ oss, es.mapM self = (.ok (.ok oss) : Run (Except Error _)) ∧ os = oss.flatten := by
  induction es generalizing os with
  | nil =>
    constructor
    · exact fun h => ⟨[], rfl, h⟩
    · rintro ⟨_, h, rfl⟩
      cases h
      rfl
  | cons e es ih =>
    rw [List.mapM_cons]
    constructor
    · rintro ⟨first, rest, hfirst, hrest, rfl⟩
      obtain ⟨oss, hoss, rfl⟩ := ih.1 hrest
      exact ⟨first :: oss, Lowered.bind_eq_ok.2 ⟨first, hfirst,
        Lowered.bind_eq_ok.2 ⟨oss, hoss, rfl⟩⟩, List.flatten_cons.symm⟩
    · rintro ⟨oss, h, rfl⟩
      obtain ⟨first, hfirst, h⟩ := Lowered.bind_eq_ok.1 h
      obtain ⟨rest, hrest, h⟩ := Lowered.bind_eq_ok.1 h
      cases h
      exact ⟨first, rest.flatten, hfirst, ih.2 ⟨rest, hrest, rfl⟩, List.flatten_cons⟩

namespace Program

/-- The variable that an assignment to `target` writes, and what it evaluates for it. -/
def targetParts (p : Program) (target : ExprId) : Option (VarId × List ExprId) :=
  match p.exprs.get? target with
  | some (.var v) => some (v, [])
  | some (.field object v) => some (v, [object])
  | _ => none

/-- What an expression evaluates, in order, and what it does itself. -/
def emits (p : Program) (e : ExprId) : Expr → Option (List ExprId × List Operation)
  | .int _ | .bool _ | .null => some ([], [])
  | .var v => some ([], [⟨.read v, e⟩])
  | .field object v => some ([object], [⟨.read v, e⟩])
  | .unary _ operand => some ([operand], [])
  | .binary _ lhs rhs => some ([lhs, rhs], [])
  | .assign target value =>
    (p.targetParts target).map fun (v, objects) => (objects ++ [value], [⟨.write v value, e⟩])
  | .compound _ target value =>
    (p.targetParts target).map fun (v, objects) => (objects ++ [value], [⟨.readWrite v, e⟩])
  | .increment _ target =>
    (p.targetParts target).map fun (v, objects) => (objects, [⟨.readWrite v, e⟩])
  | .call _ receiver args => some (receiver.toList ++ args, [⟨.call e, e⟩])
  | .newObject _ => some ([], [⟨.call e, e⟩])
  | .newArray _ length => some ([length], [])

/-- Whether an expression, its operands aside, has side effects. -/
def impureHead (p : Program) : Expr → Bool
  | .assign .. | .compound .. | .increment .. | .newObject _ => true
  | .call method .. => ((p.methods.get? method).map fun decl => !decl.isPure).getD false
  | _ => false

theorem impureHead_congr {q : Program} (h : q.methods = p.methods) (x : Expr) :
    q.impureHead x = p.impureHead x := by
  cases x <;> simp [impureHead, h]

theorem InRange.targetParts_lt (hp : p.InRange) {t : ExprId} {v : VarId} {objects : List ExprId}
    (h : p.targetParts t = some (v, objects)) : v.index < p.vars.size := by
  rw [targetParts] at h
  split at h
  · next hx =>
    cases h
    exact hp.named t _ v hx rfl
  · next hx =>
    cases h
    exact hp.named t _ v hx rfl
  · cases h

theorem targetOperations_eq_ok {target : ExprId} {v : VarId} {before : List Operation} :
    p.targetOperations self target = (.ok (.ok (v, before)) : Run (Except Error _)) ↔
      ∃ objects, p.targetParts target = some (v, objects) ∧ SpelledBy self objects before := by
  rw [targetOperations, Lowered.bind_eq_ok]
  constructor
  · rintro ⟨x, hx, h⟩
    rw [Lowered.get_eq_ok] at hx
    cases x with
    | var u =>
      cases h
      exact ⟨[], by rw [targetParts, hx], rfl⟩
    | field object u =>
      obtain ⟨os, hos, h⟩ := Lowered.bind_eq_ok.1 h
      cases h
      exact ⟨[object], by rw [targetParts, hx], spelledBy_one.2 hos⟩
    | _ => cases h
  · rintro ⟨objects, hparts, hspells⟩
    rw [targetParts] at hparts
    split at hparts
    · next u hx =>
      cases hparts
      cases hspells
      exact ⟨_, Lowered.get_eq_ok.2 hx, rfl⟩
    · next object u hx =>
      cases hparts
      exact ⟨_, Lowered.get_eq_ok.2 hx,
        Lowered.bind_eq_ok.2 ⟨before, spelledBy_one.1 hspells, rfl⟩⟩
    · cases hparts

/-- One level of the operations of an expression: what it evaluates, then what it does. -/
theorem operationsStep_eq_ok {e : ExprId} {os : List Operation} :
    p.operationsStep self e = (.ok (.ok os) : Run (Except Error _)) ↔
      ∃ x ins own before, p.exprs.get? e = some x ∧ p.emits e x = some (ins, own) ∧
        SpelledBy self ins before ∧ os = before ++ own := by
  rw [operationsStep, Lowered.bind_eq_ok]
  refine exists_congr fun x => ?_
  rw [Lowered.get_eq_ok]
  simp only [exists_and_left]
  refine and_congr_right fun _ => ?_
  cases x with
  | int | bool | null | newObject | var =>
    simp only [emits, Option.some.injEq, Prod.mk.injEq, Lowered.pure_eq_ok]
    constructor
    · rintro rfl
      exact ⟨[], _, ⟨rfl, rfl⟩, [], rfl, rfl⟩
    · rintro ⟨_, _, ⟨rfl, rfl⟩, _, rfl, rfl⟩
      rfl
  | unary op operand =>
    simp only [emits, Option.some.injEq, Prod.mk.injEq]
    constructor
    · intro h
      exact ⟨_, _, ⟨rfl, rfl⟩, os, spelledBy_one.2 h, (List.append_nil os).symm⟩
    · rintro ⟨_, _, ⟨rfl, rfl⟩, before, h, rfl⟩
      rw [List.append_nil]
      exact spelledBy_one.1 h
  | newArray element length =>
    simp only [emits, Option.some.injEq, Prod.mk.injEq]
    constructor
    · intro h
      exact ⟨_, _, ⟨rfl, rfl⟩, os, spelledBy_one.2 h, (List.append_nil os).symm⟩
    · rintro ⟨_, _, ⟨rfl, rfl⟩, before, h, rfl⟩
      rw [List.append_nil]
      exact spelledBy_one.1 h
  | field object v =>
    simp only [emits, Option.some.injEq, Prod.mk.injEq]
    constructor
    · intro h
      obtain ⟨before, hbefore, h⟩ := Lowered.bind_eq_ok.1 h
      cases h
      exact ⟨_, _, ⟨rfl, rfl⟩, before, spelledBy_one.2 hbefore, rfl⟩
    · rintro ⟨_, _, ⟨rfl, rfl⟩, before, h, rfl⟩
      exact Lowered.bind_eq_ok.2 ⟨before, spelledBy_one.1 h, rfl⟩
  | binary op lhs rhs =>
    simp only [emits, Option.some.injEq, Prod.mk.injEq]
    constructor
    · intro h
      obtain ⟨os₁, h₁, h⟩ := Lowered.bind_eq_ok.1 h
      obtain ⟨os₂, h₂, h⟩ := Lowered.bind_eq_ok.1 h
      cases h
      exact ⟨_, _, ⟨rfl, rfl⟩, _, ⟨os₁, os₂, h₁, spelledBy_one.2 h₂, rfl⟩, (List.append_nil _).symm⟩
    · rintro ⟨_, _, ⟨rfl, rfl⟩, _, ⟨os₁, os₂, h₁, h₂, rfl⟩, rfl⟩
      rw [List.append_nil]
      exact Lowered.bind_eq_ok.2 ⟨os₁, h₁, Lowered.bind_eq_ok.2 ⟨os₂, spelledBy_one.1 h₂, rfl⟩⟩
  | assign target value =>
    simp only [emits, Option.map_eq_some_iff]
    constructor
    · intro h
      obtain ⟨⟨v, before⟩, ht, h⟩ := Lowered.bind_eq_ok.1 h
      obtain ⟨os₂, h₂, h⟩ := Lowered.bind_eq_ok.1 h
      cases h
      obtain ⟨objects, hparts, hspells⟩ := targetOperations_eq_ok.1 ht
      exact ⟨_, _, ⟨_, hparts, rfl⟩, _,
        spelledBy_append.2 ⟨before, os₂, hspells, spelledBy_one.2 h₂, rfl⟩, rfl⟩
    · rintro ⟨_, _, ⟨⟨v, objects⟩, hparts, heq⟩, _, hspells, rfl⟩
      cases heq
      obtain ⟨before, os₂, h₁, h₂, rfl⟩ := spelledBy_append.1 hspells
      exact Lowered.bind_eq_ok.2 ⟨_, targetOperations_eq_ok.2 ⟨objects, hparts, h₁⟩,
        Lowered.bind_eq_ok.2 ⟨os₂, spelledBy_one.1 h₂, rfl⟩⟩
  | compound op target value =>
    simp only [emits, Option.map_eq_some_iff]
    constructor
    · intro h
      obtain ⟨⟨v, before⟩, ht, h⟩ := Lowered.bind_eq_ok.1 h
      obtain ⟨os₂, h₂, h⟩ := Lowered.bind_eq_ok.1 h
      cases h
      obtain ⟨objects, hparts, hspells⟩ := targetOperations_eq_ok.1 ht
      exact ⟨_, _, ⟨_, hparts, rfl⟩, _,
        spelledBy_append.2 ⟨before, os₂, hspells, spelledBy_one.2 h₂, rfl⟩, rfl⟩
    · rintro ⟨_, _, ⟨⟨v, objects⟩, hparts, heq⟩, _, hspells, rfl⟩
      cases heq
      obtain ⟨before, os₂, h₁, h₂, rfl⟩ := spelledBy_append.1 hspells
      exact Lowered.bind_eq_ok.2 ⟨_, targetOperations_eq_ok.2 ⟨objects, hparts, h₁⟩,
        Lowered.bind_eq_ok.2 ⟨os₂, spelledBy_one.1 h₂, rfl⟩⟩
  | increment op target =>
    simp only [emits, Option.map_eq_some_iff]
    constructor
    · intro h
      obtain ⟨⟨v, before⟩, ht, h⟩ := Lowered.bind_eq_ok.1 h
      cases h
      obtain ⟨objects, hparts, hspells⟩ := targetOperations_eq_ok.1 ht
      exact ⟨_, _, ⟨_, hparts, rfl⟩, before, hspells, rfl⟩
    · rintro ⟨_, _, ⟨⟨v, objects⟩, hparts, heq⟩, before, hspells, rfl⟩
      cases heq
      exact Lowered.bind_eq_ok.2 ⟨_, targetOperations_eq_ok.2 ⟨objects, hparts, hspells⟩, rfl⟩
  | call method receiver args =>
    simp only [emits, Option.some.injEq, Prod.mk.injEq]
    constructor
    · intro h
      obtain ⟨oss, hoss, h⟩ := Lowered.bind_eq_ok.1 h
      cases h
      exact ⟨_, _, ⟨rfl, rfl⟩, oss.flatten, spelledBy_iff_mapM.2 ⟨oss, hoss, rfl⟩, rfl⟩
    · rintro ⟨_, _, ⟨rfl, rfl⟩, before, hspells, rfl⟩
      obtain ⟨oss, hoss, rfl⟩ := spelledBy_iff_mapM.1 hspells
      exact Lowered.bind_eq_ok.2 ⟨oss, hoss, rfl⟩

end Program

end Step

/-! ### Evaluated expressions -/

/-- A list of expressions, the list of all that is evaluated for them, each before what is
    evaluated for it, and their operations. -/
inductive Emits (p : Program) : List ExprId → List ExprId → List Operation → Prop
  | nil : Emits p [] [] []
  | cons {e : ExprId} {x : Expr} {ins own es inner rest : _} {before after : List Operation} :
    p.exprs.get? e = some x → p.emits e x = some (ins, own) → Emits p ins inner before →
    Emits p es rest after →
    Emits p (e :: es) (e :: (inner ++ rest)) (before ++ (own ++ after))

namespace Emits

variable {p : Program} {es es' l l' : List ExprId} {os os' : List Operation} {e : ExprId}

theorem append (h : Emits p es l os) (h' : Emits p es' l' os') :
    Emits p (es ++ es') (l ++ l') (os ++ os') := by
  induction h with
  | nil => exact h'
  | cons he hx h _ _ ih =>
    rw [List.cons_append, List.cons_append, List.append_assoc, List.append_assoc,
      List.append_assoc]
    exact .cons he hx h ih

/-- What is evaluated can be listed if each expression has operations for which it can. -/
theorem exists_of_spelledBy {self : ExprId → Lowered (List Operation)}
    (hself : ∀ e os, self e = (.ok (.ok os) : Run (Except Error _)) → ∃ l, Emits p [e] l os)
    (h : SpelledBy self es os) : ∃ l, Emits p es l os := by
  induction es generalizing os with
  | nil =>
    cases h
    exact ⟨[], .nil⟩
  | cons e es ih =>
    obtain ⟨first, rest, hfirst, hrest, rfl⟩ := h
    obtain ⟨l, hl⟩ := hself e first hfirst
    obtain ⟨l', hl'⟩ := ih hrest
    exact ⟨l ++ l', hl.append hl'⟩

/-- Where there are operations, what is evaluated for them can be listed. -/
theorem exists_of_operations {depth : Nat}
    (h : unroll (throwThe Fault .endless) p.operationsStep depth e =
      (.ok (.ok os) : Run (Except Error _))) : ∃ l, Emits p [e] l os := by
  induction depth generalizing e os with
  | zero => cases h
  | succ depth ih =>
    rw [unroll_succ] at h
    obtain ⟨x, ins, own, before, hx, hemits, hspelled, rfl⟩ := Program.operationsStep_eq_ok.1 h
    obtain ⟨inner, hinner⟩ := exists_of_spelledBy (fun e os => ih) hspelled
    have hone := Emits.cons hx hemits hinner .nil
    rw [List.append_nil own] at hone
    exact ⟨_, hone⟩

theorem exists_of_spells (h : p.Spells es os) : ∃ l, Emits p es l os :=
  exists_of_spelledBy (fun _ _ h => exists_of_operations h) h

/-- What is evaluated has its operations, if the recursion goes deep enough. -/
theorem spelledBy (h : Emits p es l os) {depth : Nat} (hdepth : l.length ≤ depth) :
    SpelledBy (unroll (throwThe Fault .endless) p.operationsStep depth) es os := by
  induction h generalizing depth with
  | nil => rfl
  | @cons e x ins own es inner rest before after he hx _ _ ih₁ ih₂ =>
    simp only [List.length_cons, List.length_append] at hdepth
    obtain ⟨depth, rfl⟩ : ∃ k, depth = k + 1 := ⟨depth - 1, by omega⟩
    refine ⟨before ++ own, after, ?_, ih₂ (by omega), (List.append_assoc ..).symm⟩
    exact Program.operationsStep_eq_ok.2 ⟨x, ins, own, before, he, hx, ih₁ (by omega), rfl⟩

theorem spells (h : Emits p es l os) (hl : l.length ≤ p.exprs.size) : p.Spells es os :=
  h.spelledBy (Nat.le_succ_of_le hl)

end Emits

/-- The operands that an expression assigns to. -/
def Expr.targets : Expr → List ExprId
  | assign target _ | compound _ target _ | increment _ target => [target]
  | _ => []

/-- The value that an operation writes as it is. -/
def Operation.value? (o : Operation) : Option ExprId :=
  match o.kind with
  | .write _ e => some e
  | _ => none

namespace Program

variable {p : Program} {e : ExprId} {x : Expr} {ins : List ExprId} {own : List Operation}

/-- The operations of an expression itself: one at most. -/
theorem own_eq_of_emits (h : p.emits e x = some (ins, own)) :
    own = [] ∨ ∃ kind, own = [⟨kind, e⟩] := by
  cases x <;> simp only [emits, Option.map_eq_some_iff, Option.some.injEq, Prod.mk.injEq] at h
  case assign | compound | increment =>
    obtain ⟨_, _, _, rfl⟩ := h
    exact .inr ⟨_, rfl⟩
  case var | field | call | newObject =>
    obtain ⟨_, rfl⟩ := h
    exact .inr ⟨_, rfl⟩
  all_goals exact .inl h.2.symm

/-- What the operation of an expression itself can be. -/
theorem own_cases (h : p.emits e x = some (ins, own)) {o : Operation} (ho : o ∈ own) :
    o.expr = e ∧ ((∃ v, o.kind = .read v ∧ (x = .var v ∨ ∃ object, x = .field object v)) ∨
      (∃ v t y objects, o.kind = .write v y ∧ x = .assign t y ∧
        p.targetParts t = some (v, objects) ∧ ins = objects ++ [y]) ∨
      (∃ v, o.kind = .readWrite v ∧ p.impureHead x = true) ∨
      o.kind = .call e ∧ ((∃ method receiver args, x = .call method receiver args) ∨
        ∃ c, x = .newObject c)) := by
  cases x <;> simp only [emits, Option.map_eq_some_iff, Option.some.injEq, Prod.mk.injEq] at h
  case var v =>
    obtain ⟨_, rfl⟩ := h
    obtain rfl := List.mem_singleton.1 ho
    exact ⟨rfl, .inl ⟨v, rfl, .inl rfl⟩⟩
  case field object v =>
    obtain ⟨_, rfl⟩ := h
    obtain rfl := List.mem_singleton.1 ho
    exact ⟨rfl, .inl ⟨v, rfl, .inr ⟨object, rfl⟩⟩⟩
  case assign t y =>
    obtain ⟨⟨v, objects⟩, hparts, rfl, rfl⟩ := h
    obtain rfl := List.mem_singleton.1 ho
    exact ⟨rfl, .inr (.inl ⟨v, t, y, objects, rfl, rfl, hparts, rfl⟩)⟩
  case compound | increment =>
    obtain ⟨_, _, _, rfl⟩ := h
    obtain rfl := List.mem_singleton.1 ho
    exact ⟨rfl, .inr (.inr (.inl ⟨_, rfl, rfl⟩))⟩
  case call method receiver args =>
    obtain ⟨_, rfl⟩ := h
    obtain rfl := List.mem_singleton.1 ho
    exact ⟨rfl, .inr (.inr (.inr ⟨rfl, .inl ⟨method, receiver, args, rfl⟩⟩))⟩
  case newObject c =>
    obtain ⟨_, rfl⟩ := h
    obtain rfl := List.mem_singleton.1 ho
    exact ⟨rfl, .inr (.inr (.inr ⟨rfl, .inr ⟨c, rfl⟩⟩))⟩
  all_goals
    obtain ⟨_, rfl⟩ := h
    cases ho

/-- A value that an expression writes is one that it evaluates. -/
theorem count_value_le_of_emits (h : p.emits e x = some (ins, own)) (a : ExprId) :
    (own.filterMap Operation.value?).count a ≤ ins.count a := by
  cases x <;> simp only [emits, Option.map_eq_some_iff, Option.some.injEq, Prod.mk.injEq] at h
  case assign target value =>
    obtain ⟨⟨v, objects⟩, _, rfl, rfl⟩ := h
    simp [Operation.value?, List.count_append]
  case compound | increment =>
    obtain ⟨_, _, _, rfl⟩ := h
    exact Nat.zero_le _
  all_goals
    obtain ⟨_, rfl⟩ := h
    exact Nat.zero_le _

/-- What an assignment evaluates for its target is inside the target. -/
theorem spans_of_targetParts {t : ExprId} {v : VarId} {objects es l : List ExprId}
    (ht : p.targetParts t = some (v, objects)) (h : Spans p (t :: es) l) :
    ∃ l', Spans p (objects ++ es) l' ∧ l = t :: l' := by
  rw [targetParts] at ht
  cases h with
  | @cons _ y _ inner rest hy hinner hrest =>
    rw [hy] at ht
    cases y with
    | var u =>
      cases ht
      cases hinner
      exact ⟨rest, hrest, rfl⟩
    | field object u =>
      cases ht
      exact ⟨inner ++ rest, hinner.append hrest, rfl⟩
    | _ => cases ht

/-- The operands of an expression are those that it evaluates and those that it assigns to. -/
theorem spans_of_emits (h : p.emits e x = some (ins, own)) {l : List ExprId}
    (hl : Spans p x.operands l) : ∃ l', Spans p ins l' ∧ l = x.targets ++ l' := by
  cases x <;> simp only [emits, Option.map_eq_some_iff, Option.some.injEq, Prod.mk.injEq] at h
  case assign | compound =>
    obtain ⟨⟨v, objects⟩, ht, rfl, _⟩ := h
    exact spans_of_targetParts ht hl
  case increment =>
    obtain ⟨⟨v, objects⟩, ht, rfl, _⟩ := h
    obtain ⟨l', hl', rfl⟩ := spans_of_targetParts ht hl
    rw [List.append_nil] at hl'
    exact ⟨l', hl', rfl⟩
  all_goals
    obtain ⟨rfl, _⟩ := h
    exact ⟨l, hl, rfl⟩

end Program

namespace Emits

variable {p : Program} {es l : List ExprId} {os : List Operation}

/-- The targets of assignments among expressions. -/
def targetsIn (p : Program) (l : List ExprId) : List ExprId :=
  l.flatMap fun e => ((p.exprs.get? e).map Expr.targets).getD []

/-- Everything inside expressions is evaluated or assigned to. -/
theorem perm (h : Emits p es l os) {all : List ExprId} (hall : Spans p es all) :
    all.Perm (l ++ targetsIn p l) := by
  induction h generalizing all with
  | nil =>
    cases hall
    exact .nil
  | @cons e x ins own es inner rest before after he hx _ _ ih₁ ih₂ =>
    cases hall with
    | cons hy hinner hrest =>
      rw [he] at hy
      cases hy
      obtain ⟨l', hl', rfl⟩ := Program.spans_of_emits hx hinner
      have hfirst := ih₁ hl'
      have hlast := ih₂ hrest
      have htargets : targetsIn p (e :: (inner ++ rest)) =
          x.targets ++ (targetsIn p inner ++ targetsIn p rest) := by
        simp [targetsIn, he]
      rw [htargets, List.perm_iff_count]
      rw [List.perm_iff_count] at hfirst hlast
      intro a
      have := hfirst a
      have := hlast a
      simp only [List.cons_append, List.count_cons, List.count_append] at *
      omega

/-- Every operation is that of an evaluated expression, which has no other one. -/
theorem count_exprs_le (h : Emits p es l os) (a : ExprId) :
    (os.map Operation.expr).count a ≤ l.count a := by
  induction h with
  | nil => simp
  | cons _ hx _ _ ih₁ ih₂ =>
    simp only [List.map_append, List.count_append, List.count_cons]
    rcases Program.own_eq_of_emits hx with rfl | ⟨kind, rfl⟩
    · simp only [List.map_nil, List.count_nil]
      omega
    · simp only [List.map_cons, List.map_nil, List.count_cons, List.count_nil]
      omega

/-- Every value is written by one operation at most, and what is evaluated first of all is
    written by none. -/
theorem count_values_le (h : Emits p es l os) (a : ExprId) :
    es.count a + (os.filterMap Operation.value?).count a ≤ l.count a := by
  induction h with
  | nil => simp
  | cons _ hx _ _ ih₁ ih₂ =>
    have hown := Program.count_value_le_of_emits hx a
    simp only [List.filterMap_append, List.count_append, List.count_cons]
    omega

/-- What is evaluated does what it does itself. -/
theorem exists_emits (h : Emits p es l os) {e : ExprId} (he : e ∈ l) :
    ∃ x ins own, p.exprs.get? e = some x ∧ p.emits e x = some (ins, own) ∧ own ⊆ os := by
  induction h with
  | nil => cases he
  | cons hx hown _ _ ih₁ ih₂ =>
    rcases List.mem_cons.1 he with rfl | he
    · exact ⟨_, _, _, hx, hown, fun o ho => List.mem_append_right _ (List.mem_append_left _ ho)⟩
    · rcases List.mem_append.1 he with he | he
      · obtain ⟨x, ins, own, hx, hown, hos⟩ := ih₁ he
        exact ⟨x, ins, own, hx, hown, fun o ho => List.mem_append_left _ (hos ho)⟩
      · obtain ⟨x, ins, own, hx, hown, hos⟩ := ih₂ he
        exact ⟨x, ins, own, hx, hown, fun o ho =>
          List.mem_append_right _ (List.mem_append_right _ (hos ho))⟩

/-- Each operation is the own one of an evaluated expression. -/
theorem exists_of_mem (h : Emits p es l os) {o : Operation} (ho : o ∈ os) :
    o.expr ∈ l ∧ ∃ x ins own, p.exprs.get? o.expr = some x ∧
      p.emits o.expr x = some (ins, own) ∧ o ∈ own := by
  induction h with
  | nil => cases ho
  | @cons e x ins own es inner rest before after he hx _ _ ih₁ ih₂ =>
    rcases List.mem_append.1 ho with ho | ho
    · obtain ⟨hmem, hown⟩ := ih₁ ho
      exact ⟨List.mem_cons_of_mem _ (List.mem_append_left _ hmem), hown⟩
    · rcases List.mem_append.1 ho with ho | ho
      · have hexpr : o.expr = e := by
          rcases Program.own_eq_of_emits hx with rfl | ⟨kind, rfl⟩
          · cases ho
          · rw [List.mem_singleton.1 ho]
        rw [hexpr]
        exact ⟨List.mem_cons_self, x, ins, own, he, hx, ho⟩
      · obtain ⟨hmem, hown⟩ := ih₂ ho
        exact ⟨List.mem_cons_of_mem _ (List.mem_append_right _ hmem), hown⟩

end Emits

/-- The kinds of operations of expressions. -/
def NodeKind.isOperation : NodeKind → Bool
  | read _ | write .. | readWrite _ | call _ => true
  | _ => false

theorem Emits.isOperation {p : Program} {es l : List ExprId} {os : List Operation}
    (h : Emits p es l os) : ∀ o ∈ os, o.kind.isOperation = true := by
  intro o ho
  obtain ⟨_, x, ins, own, _, hemits, hown⟩ := h.exists_of_mem ho
  obtain ⟨_, ⟨v, hk, _⟩ | ⟨v, _, y, _, hk, _⟩ | ⟨v, hk, _⟩ | ⟨hk, _⟩⟩ := Program.own_cases hemits hown
  all_goals
    rw [hk]
    rfl

theorem SpelledBy.unique {self : ExprId → Lowered (List Operation)} {es : List ExprId}
    {os os' : List Operation} (h : SpelledBy self es os) (h' : SpelledBy self es os') : os' = os := by
  induction es generalizing os os' with
  | nil => exact h'.trans h.symm
  | cons e es ih =>
    obtain ⟨first, rest, hfirst, hrest, rfl⟩ := h
    obtain ⟨first', rest', hfirst', hrest', rfl⟩ := h'
    cases hfirst.symm.trans hfirst'
    rw [ih hrest hrest']

end Dataflow
