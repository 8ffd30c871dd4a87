import Dataflow.Inlining.Analysis
import Dataflow.Proofs.LeastSolution
import Mathlib.Data.Finset.Card
import Mathlib.Order.WellFounded

/-!
# What nodes do to known values

A fact of inlining answers two questions about a variable: whether the fact speaks of it at all,
and which expression it is known to hold, if any. Both answers after a node follow from those
before it, variable by variable (`Effect`), and so do those where facts meet.

* `Effect`: what a node does to a fact;
* `Inlining.effect`: the effect of an operation, in a program;
* `Inlining.transfer_eq`: the transfer of inlining does what the effect says;
* `Inlining.analysis_follows`: so does a visit of the solver.
-/

namespace Dataflow.Inlining

/-! ### Two questions about a variable -/

namespace Known

variable {a b k : Known} {u v : VarId}

/-- A fact is what it answers. -/
theorem ext_answers (hcontains : ∀ u, a.contains u = b.contains u)
    (hvalue : ∀ u, a.value u = b.value u) : a = b := by
  refine HandleMap.ext_find? fun u => ?_
  have hc := hcontains u
  have hv := hvalue u
  simp only [HandleMap.contains, value] at hc hv
  cases ha : a.find? u with
  | none =>
    rw [ha] at hc
    cases hb : b.find? u with
    | none => rfl
    | some y =>
      rw [hb] at hc
      cases hc
  | some x =>
    rw [ha] at hc hv
    cases hb : b.find? u with
    | none =>
      rw [hb] at hc
      cases hc
    | some y =>
      rw [hb] at hv
      cases x <;> cases y <;> simp_all

theorem contains_of_value {x : ExprId} (h : k.value u = some x) : k.contains u = true := by
  rw [value] at h
  rw [HandleMap.contains]
  split at h
  · next hx => rw [hx]; rfl
  · cases h

@[simp] theorem contains_empty : ({} : Known).contains u = false := rfl

@[simp] theorem value_empty : value {} u = none := rfl

theorem contains_insert {x : Value} :
    HandleMap.contains (k.insert v x) u = (decide (v = u) || k.contains u) := by
  rw [HandleMap.contains, HandleMap.find?_insert]
  split
  · next h => simp [h]
  · next h => simp [h, HandleMap.contains]

/-- The expression of a value, if it is known. -/
def held : Option Value → Option ExprId
  | some (.expr e) => some e
  | _ => none

theorem value_insert {x : Value} :
    value (k.insert v x) u = if v = u then held (some x) else k.value u := by
  change held ((k.insert v x).find? u) = _
  rw [HandleMap.find?_insert]
  split <;> rfl

@[simp] theorem contains_forgetAll : k.forgetAll.contains u = k.contains u := by
  rw [HandleMap.contains, forgetAll, HandleMap.find?_mapValues, Option.isSome_map]
  rfl

@[simp] theorem value_forgetAll : k.forgetAll.value u = none := by
  rw [value, forgetAll, HandleMap.find?_mapValues]
  cases k.find? u <;> rfl

@[simp] theorem contains_join : (a.join b).contains u = (a.contains u || b.contains u) := by
  rw [HandleMap.contains, find?_join]
  split
  · next h => rw [h]; rfl
  · next h => rw [Bool.eq_false_iff.2 h]; rfl

theorem held_joinValues (x y : Option Value) :
    held (if x.isSome || y.isSome then some (joinValues x y) else none) =
      if held x = held y then held x else none := by
  rcases x with _ | (x | _) <;> rcases y with _ | (y | _) <;>
    simp only [held, joinValues, Option.isSome, Bool.or_true, Bool.or_false, if_true]
  case some.expr.some.expr => by_cases h : x = y <;> simp [h]
  all_goals rfl

@[simp] theorem value_join :
    (a.join b).value u = if a.value u = b.value u then a.value u else none := by
  change held ((a.join b).find? u) = _
  rw [find?_join]
  exact held_joinValues (a.find? u) (b.find? u)

end Known

/-! ### Where facts meet -/

namespace Known

variable {a b k : Known} {u : VarId} {l : List Known}

theorem contains_joinAll : (Fact.joinAll {} l : Known).contains u = l.any (·.contains u) := by
  cases l with
  | nil => rfl
  | cons a rest =>
    rw [Fact.joinAll]
    induction rest generalizing a with
    | nil => simp
    | cons b rest ih =>
      rw [List.foldl_cons, ih]
      simp only [List.any_cons]
      rw [show (Fact.join a b : Known).contains u = _ from contains_join, Bool.or_assoc]

/-- A value is known where facts meet if each of them knows it. -/
theorem value_joinAll {x : ExprId} : (Fact.joinAll {} l : Known).value u = some x ↔
    l ≠ [] ∧ ∀ k ∈ l, k.value u = some x := by
  cases l with
  | nil => exact ⟨fun h => (by cases h), fun h => absurd rfl h.1⟩
  | cons a rest =>
    rw [Fact.joinAll]
    simp only [ne_eq, reduceCtorEq, not_false_eq_true, true_and]
    induction rest generalizing a with
    | nil => simp
    | cons b rest ih =>
      rw [List.foldl_cons, ih]
      simp only [List.forall_mem_cons]
      rw [show (Fact.join a b : Known).value u = _ from value_join, ← and_assoc]
      refine and_congr_left fun _ => ?_
      by_cases h : a.value u = b.value u
      · rw [if_pos h, h, and_self]
      · rw [if_neg h]
        exact ⟨fun h => (by cases h), fun h' => absurd (h'.1.trans h'.2.symm) h⟩

instance : Max Known := ⟨join⟩

/-- Facts in the order in which they know less: a variable becomes unknown. -/
instance : SemilatticeSup Known := .mk'
  (fun a b => ext_answers
    (fun u => by
      change (a.join b).contains u = (b.join a).contains u
      rw [contains_join, contains_join, Bool.or_comm])
    fun u => by
      change (a.join b).value u = (b.join a).value u
      rw [value_join, value_join]
      by_cases h : a.value u = b.value u
      · rw [if_pos h, if_pos h.symm, h]
      · rw [if_neg h, if_neg (Ne.symm h)])
  (fun a b c => ext_answers
    (fun u => by
      change ((a.join b).join c).contains u = (a.join (b.join c)).contains u
      simp only [contains_join, Bool.or_assoc])
    fun u => by
      change ((a.join b).join c).value u = (a.join (b.join c)).value u
      simp only [value_join]
      grind)
  (fun a => ext_answers
    (fun u => by
      change (a.join a).contains u = a.contains u
      rw [contains_join, Bool.or_self])
    fun u => by
      change (a.join a).value u = a.value u
      rw [value_join, if_pos rfl])

theorem le_iff : a ≤ b ↔ a.join b = b := Iff.rfl

end Known

/-! ### Effects -/

/-- What a node does to a fact. -/
inductive Effect where
  /-- It changes nothing. -/
  | keep
  /-- No variable is known any more. -/
  | forget
  /-- A variable gets a value, known or not, and no other one is known any more. -/
  | put (v : VarId) (value : Option ExprId)
  /-- No other variable is known any more. -/
  | spare (v : VarId)
  deriving DecidableEq

namespace Effect

/-- The fact after a node. -/
def apply : Effect → Known → Known
  | keep, k => k
  | forget, k => k.forgetAll
  | put v none, k => (k.forget v).forgetAll
  | put v (some x), k => (k.forget v).forgetAll.learn v x
  | spare v, k =>
    match k.find? v with
    | some known => k.forgetAll.insert v known
    | none => k.forgetAll

/-- The expression that a variable is known to hold after a node, from the one before. -/
def after : Effect → VarId → Option ExprId → Option ExprId
  | keep, _, x => x
  | forget, _, _ => none
  | put v value, u, _ => if v = u then value else none
  | spare v, u, x => if v = u then x else none

/-- Whether facts after a node speak of a variable whatever those before it do. -/
def names : Effect → VarId → Bool
  | put v _, u => decide (v = u)
  | _, _ => false

variable {f : Effect} {k a b : Known} {u v : VarId}

@[simp] theorem contains_apply : (f.apply k).contains u = (f.names u || k.contains u) := by
  cases f with
  | keep | forget => simp [apply, names]
  | put v value =>
    cases value <;> simp [apply, names, Known.forget, Known.learn, Known.contains_insert]
  | spare v =>
    change (apply (spare v) k).contains u = (false || k.contains u)
    rw [apply, Bool.false_or]
    split
    · next x hx =>
      rw [Known.contains_insert, Known.contains_forgetAll]
      by_cases h : v = u
      · subst h
        simp [HandleMap.contains, hx]
      · simp [h]
    · exact Known.contains_forgetAll

@[simp] theorem value_apply : (f.apply k).value u = f.after u (k.value u) := by
  cases f with
  | keep | forget => simp [apply, after]
  | put v value =>
    cases value with
    | none => simp [apply, after]
    | some x => simp [apply, after, Known.learn, Known.value_insert, Known.held]
  | spare v =>
    rw [apply, after]
    split
    · next x hx =>
      rw [Known.value_insert, Known.value_forgetAll]
      by_cases h : v = u
      · subst h
        rw [if_pos rfl, if_pos rfl, ← hx]
        rfl
      · rw [if_neg h, if_neg h]
    · next hx =>
      rw [Known.value_forgetAll]
      by_cases h : v = u
      · subst h
        rw [if_pos rfl, Known.value, hx]
      · rw [if_neg h]

/-- Of one variable, a node leaves the value as it was or gives it a certain one. -/
theorem after_cases (f : Effect) (u : VarId) :
    f.after u = id ∨ ∃ y, f.after u = (fun _ => y) ∧ (y ≠ none → f = .put u y) := by
  cases f with
  | keep => exact .inl rfl
  | forget => exact .inr ⟨none, rfl, fun h => absurd rfl h⟩
  | put v value =>
    by_cases h : v = u
    · subst h
      exact .inr ⟨value, funext fun _ => if_pos rfl, fun _ => rfl⟩
    · exact .inr ⟨none, funext fun _ => if_neg h, fun h => absurd rfl h⟩
  | spare v =>
    by_cases h : v = u
    · exact .inl (funext fun _ => if_pos h)
    · exact .inr ⟨none, funext fun _ => if_neg h, fun h => absurd rfl h⟩

theorem apply_join : f.apply (a.join b) = (f.apply a).join (f.apply b) := by
  refine Known.ext_answers (fun u => ?_) fun u => ?_
  · simp only [contains_apply, Known.contains_join]
    cases f.names u <;> simp
  · simp only [value_apply, Known.value_join]
    obtain h | ⟨y, h, _⟩ := f.after_cases u
    · rw [h]
      rfl
    · simp [h]

theorem apply_monotone (f : Effect) : Monotone f.apply := fun a b h => by
  rw [Known.le_iff] at h ⊢
  rw [← apply_join, h]

end Effect

/-- What an operation does to a fact. -/
def effect (oracle : Oracle) (p : Program) : NodeKind → Run Effect
  | .write v value => do
    if ← oracle.isTrackable p v then
      if ← isInlinable oracle p v value then return .put v (some value)
      return .put v none
    return .spare v
  | .call call => do
    if ← oracle.callHasEffects p call then return .forget
    return .keep
  | .readWrite _ => return .forget
  | _ => return .keep

variable {oracle : Oracle} {p : Program} {g : Graph}

/-- The transfer of inlining is the effect of the operation. -/
theorem transfer_eq (oracle : Oracle) (p : Program) (kind : NodeKind) (k : Known) :
    transfer oracle p kind k = (do return (← effect oracle p kind).apply k) := by
  cases kind with
  | write v value =>
    rw [transfer, effect]
    rcases oracle.isTrackable p v with _ | (_ | _)
    · rfl
    · change _ = Except.ok ((Effect.spare v).apply k)
      rw [Effect.apply]
      cases k.find? v <;> rfl
    · change (isInlinable oracle p v value >>= _) = (isInlinable oracle p v value >>= _) >>= _
      rcases isInlinable oracle p v value with _ | (_ | _) <;> rfl
  | call call =>
    rw [transfer, effect]
    rcases oracle.callHasEffects p call with _ | (_ | _) <;> rfl
  | _ => rfl

/-- A node of a graph has a certain effect. -/
def HasEffect (oracle : Oracle) (p : Program) (g : Graph) (n : NodeId) (f : Effect) : Prop :=
  ∃ node, g.nodes.get? n = some node ∧ effect oracle p node.kind = .ok f

/-- Interpreting a node puts on the edges that leave it what its effect makes of the facts that
    arrive there. -/
theorem interpret_eq {n : NodeId} {f : Effect} (h : HasEffect oracle p g n f) (m : FactMap Known) :
    (analysis oracle).interpret n g p m =
      .ok (m.put (g.outEdges.get n) fun _ => some (f.apply (m.joinIncoming g n))) := by
  obtain ⟨node, hnode, heffect⟩ := h
  change (do
    let out ← (do
      let after ← transfer oracle p (← g.kind n) (m.joined (g.inEdges.get n))
      return fun _ => some after)
    return m.put (g.outEdges.get n) out) = _
  rw [Graph.kind, Arena.get_eq_ok_iff.2 hnode]
  change (do
    let out ← (do
      let after ← transfer oracle p node.kind (m.joined (g.inEdges.get n))
      return fun _ => some after)
    return m.put (g.outEdges.get n) out) = _
  rw [transfer_eq, heffect]
  rfl

theorem analysis_follows {E : NodeId → Effect} (h : ∀ n ∈ g.order, HasEffect oracle p g n (E n)) :
    (analysis oracle).toAnalysis.Follows g p fun n _ => (E n).apply := fun n hn m =>
  ⟨g.outEdges.get n, List.Perm.refl _, interpret_eq (h n hn) m⟩

end Dataflow.Inlining
