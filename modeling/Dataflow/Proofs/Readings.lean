import Dataflow.Proofs.Unambiguity

/-!
# Readings

Two expressions can have the same text and not be the same. `- -x` is written like the decrement of
`x`, and an assignment that combines `x` and `y` by `<` or `>` is written like the comparison
`x <= y` or `x >= y`. The *reading* of a tree takes the decrement and, where it can, the comparison,
which may take operators of the assigned value apart: `x <= y == z` is read as `(x <= y) == z`.

* `ExprTree.reading`: the settled tree that is written like a tree (`ExprTree.reads_reading`);
* `ExprTree.text_eq_iff`: two trees have the same text if and only if they have the same reading;
* `Program.showExpr_eq_iff`: so have two expressions, and if neither of the two defects occurs in
  them, then they are the same tree.
-/

namespace Dataflow

namespace ExprTree

/-! ### Settling a node -/

mutual

/-- The tree whose text is that of `a`, then the comparison, then that of a tree without parentheses
    around it: operators that bind no more tightly than the comparison are taken apart. -/
def compared (c : BinaryOp) (a : ExprTree) : ExprTree → ExprTree
  | binary op lhs rhs =>
    if c.precedence < op.precedence then
      binary c a (binary op lhs rhs)
    else if lhs.precedence < op.precedence then
      binary op (binary c a (lhs.settle (c.precedence + 1))) rhs
    else
      binary op (compared c a lhs) rhs
  | t => binary c a t

/-- The settled node that is written like a node with settled operands. -/
def settle (least : Nat) : ExprTree → ExprTree
  | unary .neg (unary .neg t) =>
    if t.isPlace then increment .preDec t else unary .neg (unary .neg t)
  | compound op target value =>
    match op.orEqual with
    | none => compound op target value
    | some c =>
      if AssignsClearly least value then compound op target value else compared c target value
  | t => t

end

/-- `r` is settled and written like `t` in the same place. -/
structure Reads (p : Program) (least : Nat) (t r : ExprTree) : Prop where
  lexemes_eq : r.lexemes p = t.lexemes p
  precedence_lt_iff : r.precedence < least ↔ t.precedence < least
  legible : r.Throughout (Legible p) least

section Settling

variable {p : Program} {k : Nat} {c : BinaryOp} {a t v r : ExprTree}

theorem Reads.operand_eq (h : Reads p k t r) : r.operand p k = t.operand p k := by
  by_cases hloose : t.precedence < k
  · rw [operand_of_lt hloose, operand_of_lt (h.precedence_lt_iff.2 hloose), text, text,
      h.lexemes_eq]
  · rw [operand_of_le (Nat.not_lt.1 hloose), h.lexemes_eq.symm,
      operand_of_le (Nat.not_lt.1 (mt h.precedence_lt_iff.1 hloose))]

/-- A node is settled, or it is one of the two that are not. -/
theorem settle_cases (k : Nat) (t : ExprTree) :
    (t.SettledHere k ∧ t.settle k = t) ∨
    (∃ u, t = unary .neg (unary .neg u) ∧ u.isPlace = true ∧ t.settle k = increment .preDec u) ∨
    ∃ op c target value, t = compound op target value ∧ op.orEqual = some c ∧
      ¬AssignsClearly k value ∧ t.settle k = compared c target value := by
  fun_cases settle k t with
  | case1 u hplace => exact .inr (.inl ⟨u, rfl, hplace, rfl⟩)
  | case2 u hplace => exact .inl ⟨Bool.eq_false_iff.2 hplace, rfl⟩
  | case3 op target value hop => exact .inl ⟨.inl hop, rfl⟩
  | case4 op target value c hop hclear => exact .inl ⟨.inr hclear, rfl⟩
  | case5 op target value c hop hclear =>
    exact .inr (.inr ⟨op, c, target, value, rfl, hop, hclear, rfl⟩)
  | case6 t hneg hcompound =>
    refine .inl ⟨?_, rfl⟩
    unfold SettledHere
    split
    · exact absurd rfl (hneg _)
    · exact absurd rfl (hcompound _ _ _)
    · trivial

/-- Nodes other than assignments are settled everywhere or nowhere. -/
theorem Throughout.legible_at (h : t.Throughout (Legible p) k)
    (ht : Precedence.assignment < t.precedence) (k' : Nat) : t.Throughout (Legible p) k' := by
  refine h.of_here ⟨h.here.1, ?_⟩
  have hsettled := h.here.2
  unfold SettledHere
  split
  · exact hsettled
  · exact absurd ht (Nat.lt_irrefl _)
  · trivial

/-- What is compared with `a` is written behind it. -/
structure Compares (p : Program) (c : BinaryOp) (a v : ExprTree) : Prop where
  lexemes_eq : (compared c a v).lexemes p =
    a.lexemes p ++ .between c.symbol.toList :: v.lexemes p
  precedence_eq : (compared c a v).precedence = min c.precedence v.precedence
  legible : ∀ k, (compared c a v).Throughout (Legible p) k

/-- Settling a regular node with settled operands does not change what is written. -/
def SettlesWell (p : Program) (t : ExprTree) : Prop :=
  ∀ k, t.Regular p → (∀ q ∈ t.parts, q.2.Throughout (Legible p) q.1) → Reads p k t (t.settle k)

/-- Nor does comparing a place with a settled tree. -/
def ComparesWell (p : Program) (v : ExprTree) : Prop :=
  ∀ {c a k k'}, c.precedence = BinaryOp.le.precedence → a.isPlace = true →
    a.Throughout (Legible p) k → v.Throughout (Legible p) k' →
    Precedence.assignment < v.precedence → Compares p c a v

theorem settlesWell_of_parts (h : ∀ q ∈ t.parts, ComparesWell p q.2) : SettlesWell p t := by
  intro k hregular hparts
  obtain ⟨hsettled, heq⟩ | ⟨u, rfl, hplace, heq⟩ | ⟨op, c, target, value, rfl, hop, hclear, heq⟩ :=
    settle_cases k t
  · rw [heq]
    exact ⟨rfl, Iff.rfl, .intro ⟨hregular, hsettled⟩ hparts⟩
  · rw [heq]
    refine ⟨?_, Iff.rfl, .intro ⟨hplace, trivial⟩ ?_⟩
    · rfl
    · exact fun q hq => (hparts _ List.mem_cons_self).part hq
  · have hvalue : Precedence.assignment < value.precedence :=
      value.one_le_precedence.lt_of_ne fun h => hclear (.inl h.symm)
    have hcompares : Compares p c target value := h _ (mem_parts_value op target value)
      (BinaryOp.precedence_of_orEqual hop) hregular (hparts _ List.mem_cons_self)
      (hparts _ (mem_parts_value op target value)) hvalue
    rw [heq]
    refine ⟨?_, ?_, hcompares.legible k⟩
    · rw [hcompares.lexemes_eq, lexemes_compound, BinaryOp.symbol_append_eq hop,
        operand_of_isPlace hregular (by decide)]
    · have hcompare : Precedence.assignment < BinaryOp.le.precedence := by decide
      rw [hcompares.precedence_eq, BinaryOp.precedence_of_orEqual hop]
      rw [AssignsClearly] at hclear
      change _ ↔ Precedence.assignment < k
      omega

/-- A comparison of a place with an operand on the right. -/
theorem binary_of_isPlace (hc : c.precedence = BinaryOp.le.precedence) (hplace : a.isPlace = true)
    (ha : a.Throughout (Legible p) k) (hr : r.Throughout (Legible p) (c.precedence + 1)) :
    (binary c a r).lexemes p =
        a.lexemes p ++ .between c.symbol.toList :: r.operand p (c.precedence + 1) ∧
      ∀ k, (binary c a r).Throughout (Legible p) k := by
  have hle : c.precedence ≤ Precedence.primary := by
    rw [hc]
    decide
  have hlt : Precedence.assignment < a.precedence := by
    rw [precedence_of_isPlace hplace]
    decide
  refine ⟨by rw [lexemes_binary, operand_of_isPlace hplace hle], fun k => ?_⟩
  refine .intro ⟨trivial, trivial⟩ (List.forall_mem_cons.2 ⟨ha.legible_at hlt _, ?_⟩)
  exact List.forall_mem_singleton.2 hr

/-- Where the operator binds less tightly than the comparison, its left operand is compared. -/
theorem compares_of_lhs {op : BinaryOp} {l l' : ExprTree}
    (hv : (binary op l r).Throughout (Legible p) k) (hop : op.precedence ≤ c.precedence)
    (heq : compared c a (binary op l r) = binary op l' r)
    (hlexemes : l'.lexemes p =
      a.lexemes p ++ .between c.symbol.toList :: l.operand p op.precedence)
    (hprec : op.precedence ≤ l'.precedence) (hlegible : l'.Throughout (Legible p) op.precedence) :
    Compares p c a (binary op l r) where
  lexemes_eq := by
    rw [heq, lexemes_binary, operand_of_le hprec, hlexemes, lexemes_binary, List.append_assoc,
      List.cons_append]
  precedence_eq := by
    rw [heq]
    exact (Nat.min_eq_right hop).symm
  legible k := by
    rw [heq]
    exact .intro ⟨trivial, trivial⟩ (List.forall_mem_cons.2 ⟨hlegible,
      List.forall_mem_singleton.2 (hv.part (List.mem_cons_of_mem _ List.mem_cons_self))⟩)

theorem comparesWell_of_parts (hsettle : ∀ q ∈ v.parts, SettlesWell p q.2)
    (hcompare : ∀ q ∈ v.parts, ComparesWell p q.2) : ComparesWell p v := by
  intro c a k k' hc hplace ha hv hprec
  have htight : c.precedence < v.precedence → compared c a v = binary c a v → Compares p c a v := by
    intro hlt heq
    obtain ⟨hlexemes, hlegible⟩ := binary_of_isPlace hc hplace ha (hv.legible_at hprec _)
    rw [operand_of_le hlt] at hlexemes
    exact ⟨heq ▸ hlexemes, heq ▸ (Nat.min_eq_left hlt.le).symm, heq ▸ hlegible⟩
  cases v with
  | binary op l r =>
    by_cases hop : c.precedence < op.precedence
    · exact htight hop (by rw [compared, if_pos hop])
    have hl : l.Throughout (Legible p) op.precedence := hv.part List.mem_cons_self
    by_cases hloose : l.precedence < op.precedence
    · -- The left operand is in parentheses, which stay where they are.
      have hreads : Reads p (c.precedence + 1) l (l.settle (c.precedence + 1)) :=
        hsettle _ List.mem_cons_self _ hl.here.1 fun q => hl.part
      obtain ⟨hlexemes, hlegible⟩ := binary_of_isPlace hc hplace ha hreads.legible
      rw [hreads.operand_eq, operand_of_lt (by omega), ← operand_of_lt hloose] at hlexemes
      exact compares_of_lhs hv (Nat.not_lt.1 hop) (by rw [compared, if_neg hop, if_pos hloose])
        hlexemes (Nat.not_lt.1 hop) (hlegible _)
    · have hle : op.precedence ≤ l.precedence := Nat.not_lt.1 hloose
      have hcompares := hcompare _ List.mem_cons_self hc hplace ha hl
        (Nat.lt_of_lt_of_le (by decide) (op.five_le_precedence.trans hle))
      have hlexemes := hcompares.lexemes_eq
      rw [← operand_of_le hle] at hlexemes
      exact compares_of_lhs hv (Nat.not_lt.1 hop) (by rw [compared, if_neg hop, if_neg hloose])
        hlexemes (hcompares.precedence_eq ▸ Nat.le_min.2 ⟨Nat.not_lt.1 hop, hle⟩)
        (hcompares.legible _)
  | assign | compound => exact absurd hprec (Nat.lt_irrefl _)
  | increment op => exact htight (by rw [hc]; cases op <;> exact Nat.le_of_ble_eq_true rfl) rfl
  | _ => exact htight (by rw [hc]; exact Nat.le_of_ble_eq_true rfl) rfl

/-- Settling a regular node with settled operands gives a settled tree that is written alike. -/
theorem reads_settle (t : ExprTree) : SettlesWell p t := by
  have hboth : SettlesWell p t ∧ ComparesWell p t := by
    induction t using induct with
    | step t ih =>
      exact ⟨settlesWell_of_parts fun q hq => (ih q hq).2,
        comparesWell_of_parts (fun q hq => (ih q hq).1) fun q hq => (ih q hq).2⟩
  exact hboth.1

end Settling

/-! ### Readings -/

mutual

/-- How the text of a tree is read. -/
def reading (least : Nat) : ExprTree → ExprTree
  | field object v => field (object.reading Precedence.trailing) v
  | unary op t => settle least (unary op (t.reading Precedence.leading))
  | binary op lhs rhs => binary op (lhs.reading op.precedence) (rhs.reading (op.precedence + 1))
  | assign target value =>
    assign (target.reading (Precedence.assignment + 1)) (value.reading Precedence.assignment)
  | compound op target value => settle least (compound op
      (target.reading (Precedence.assignment + 1)) (value.reading Precedence.assignment))
  | increment op target => increment op (target.reading op.precedence)
  | call method args => call method (readings args)
  | callOn receiver method args =>
    callOn (receiver.reading Precedence.trailing) method (readings args)
  | newArray element length => newArray element (length.reading Precedence.assignment)
  | t => t

/-- How texts in a list are read. -/
def readings : List ExprTree → List ExprTree
  | [] => []
  | t :: ts => t.reading Precedence.assignment :: readings ts

end

/-- A tree with other operands. -/
def mapParts (f : Nat → ExprTree → ExprTree) : ExprTree → ExprTree
  | field object v => field (f Precedence.trailing object) v
  | unary op t => unary op (f Precedence.leading t)
  | binary op lhs rhs => binary op (f op.precedence lhs) (f (op.precedence + 1) rhs)
  | assign target value =>
    assign (f (Precedence.assignment + 1) target) (f Precedence.assignment value)
  | compound op target value =>
    compound op (f (Precedence.assignment + 1) target) (f Precedence.assignment value)
  | increment op target => increment op (f op.precedence target)
  | call method args => call method (args.map (f Precedence.assignment))
  | callOn receiver method args =>
    callOn (f Precedence.trailing receiver) method (args.map (f Precedence.assignment))
  | newArray element length => newArray element (f Precedence.assignment length)
  | t => t

theorem readings_eq_map (ts : List ExprTree) :
    readings ts = ts.map (reading Precedence.assignment) := by
  induction ts with
  | nil => rfl
  | cons t ts ih => rw [readings, ih, List.map_cons]

/-- A tree is read from its operands. -/
theorem reading_eq (k : Nat) (t : ExprTree) : t.reading k = (t.mapParts reading).settle k := by
  cases t with
  | call | callOn =>
    rw [reading, readings_eq_map]
    rfl
  | _ => rfl

section Parts

variable {p : Program} {f : Nat → ExprTree → ExprTree} (t : ExprTree)

theorem precedence_mapParts : (t.mapParts f).precedence = t.precedence := by
  cases t <;> rfl

theorem parts_mapParts : (t.mapParts f).parts = t.parts.map fun q => (q.1, f q.1 q.2) := by
  cases t <;> simp [mapParts, parts]

variable {t}

theorem mapParts_eq_self (h : ∀ q ∈ t.parts, f q.1 q.2 = q.2) : t.mapParts f = t := by
  have hargs : ∀ {args : List ExprTree}, (∀ a ∈ args, (Precedence.assignment, a) ∈ t.parts) →
      args.map (f Precedence.assignment) = args := fun hargs =>
    (List.map_congr_left fun a ha => h _ (hargs a ha)).trans (List.map_id _)
  cases t with
  | call => rw [mapParts, hargs fun _ => List.mem_map_of_mem]
  | callOn =>
    rw [mapParts, h _ List.mem_cons_self,
      hargs fun _ ha => List.mem_cons_of_mem _ (List.mem_map_of_mem ha)]
  | _ => simp_all [mapParts, parts]

theorem lexemes_mapParts (h : ∀ q ∈ t.parts, (f q.1 q.2).operand p q.1 = q.2.operand p q.1) :
    (t.mapParts f).lexemes p = t.lexemes p := by
  have hargs : ∀ {args : List ExprTree}, (∀ a ∈ args, (Precedence.assignment, a) ∈ t.parts) →
      (args.map (f Precedence.assignment)).map (text p) = args.map (text p) := by
    intro args hargs
    rw [List.map_map]
    refine List.map_congr_left fun a ha => congrArg textOf ?_
    simpa using h _ (hargs a ha)
  cases t with
  | call => rw [mapParts, lexemes_call, lexemes_call, hargs fun _ => List.mem_map_of_mem]
  | callOn =>
    rw [mapParts, lexemes_callOn, lexemes_callOn, h _ List.mem_cons_self,
      hargs fun _ ha => List.mem_cons_of_mem _ (List.mem_map_of_mem ha)]
  | _ =>
    simp_all [mapParts, parts, lexemes_field, lexemes_unary, lexemes_binary, lexemes_assign,
      lexemes_compound, lexemes_increment, lexemes_newArray, text]

theorem regular_mapParts (h : t.Regular p)
    (hplace : ∀ q ∈ t.parts, q.2.isPlace = true → (f q.1 q.2).isPlace = true) :
    (t.mapParts f).Regular p := by
  cases t with
  | assign | compound | increment => exact hplace _ List.mem_cons_self h
  | _ => exact h

end Parts

section Reading

variable {p : Program} {k : Nat} {t x y : ExprTree}

theorem isPlace_reading (h : t.isPlace = true) : (t.reading k).isPlace = true := by
  cases t with
  | var | field => rfl
  | _ => cases h

/-- The reading of a regular tree is settled and written like the tree. -/
theorem reads_reading (t : ExprTree) : ∀ {k k'}, t.Throughout (fun _ => Regular p) k' →
    Reads p k t (t.reading k) := by
  induction t using induct with
  | step t ih =>
    intro k k' ht
    have hparts : ∀ q ∈ t.parts, Reads p q.1 q.2 (q.2.reading q.1) :=
      fun q hq => ih q hq (ht.part hq)
    have hlexemes : (t.mapParts reading).lexemes p = t.lexemes p :=
      lexemes_mapParts fun q hq => (hparts q hq).operand_eq
    have hsettle : Reads p k (t.mapParts reading) ((t.mapParts reading).settle k) := by
      refine reads_settle _ k (regular_mapParts ht.here fun _ _ => isPlace_reading) ?_
      rw [parts_mapParts, List.forall_mem_map]
      exact fun q hq => (hparts q hq).legible
    rw [reading_eq]
    refine ⟨hsettle.lexemes_eq.trans hlexemes, ?_, hsettle.legible⟩
    rw [hsettle.precedence_lt_iff, precedence_mapParts]

/-- Two regular trees have the same text if and only if they have the same reading. -/
theorem text_eq_iff (hp : p.NamesApart) (hx : x.Throughout (fun _ => Regular p) k)
    (hy : y.Throughout (fun _ => Regular p) k) : x.text p = y.text p ↔
      x.reading Precedence.assignment = y.reading Precedence.assignment := by
  have hread : ∀ {t : ExprTree}, t.Throughout (fun _ => Regular p) k →
      (t.reading Precedence.assignment).text p = t.text p :=
    fun ht => congrArg textOf (reads_reading _ ht).lexemes_eq
  rw [← hread hx, ← hread hy]
  refine ⟨fun h => ?_, congrArg _⟩
  exact (told hp _).eq_of_text hp (reads_reading x hx).legible (reads_reading y hy).legible
    (iff_of_false (Nat.not_lt.2 (one_le_precedence _)) (Nat.not_lt.2 (one_le_precedence _))) h

/-- A node without either defect: not a minus sign in front of a negated place, and not an
    assignment that combines by a comparison. -/
def PlainHere : ExprTree → Prop
  | unary .neg (unary .neg t) => t.isPlace = false
  | compound op _ _ => op.orEqual = none
  | _ => True

/-- A tree that has neither defect anywhere. -/
def Plain (t : ExprTree) : Prop := t.Throughout (fun _ => PlainHere) Precedence.assignment

theorem PlainHere.settledHere (h : t.PlainHere) : t.SettledHere k := by
  unfold SettledHere
  split
  · exact h
  · exact .inl h
  · trivial

theorem settle_eq_self (h : t.SettledHere k) : t.settle k = t := by
  obtain ⟨_, heq⟩ | ⟨u, rfl, hplace, _⟩ | ⟨op, c, target, value, rfl, hop, hclear, _⟩ :=
    settle_cases k t
  · exact heq
  · exact absurd hplace (Bool.eq_false_iff.1 h)
  · cases h with
    | inl h => cases hop.symm.trans h
    | inr h => exact absurd h hclear

/-- Where everything is settled, a tree is read as what it is. -/
theorem reading_eq_self (h : t.Throughout SettledHere k) : t.reading k = t := by
  induction h with
  | intro here _ ih => rw [reading_eq, mapParts_eq_self ih, settle_eq_self here]

end Reading

end ExprTree

namespace Program

variable {p : Program}

/-- Two expressions are displayed alike if and only if their trees are read alike. If they have
    neither a minus sign in front of a negated place nor an assignment that combines by a
    comparison, then they are displayed alike only if they are the same tree. -/
theorem showExpr_eq_iff (hp : p.NamesApart) {a b : ExprId} (ha : p.Spelled a) (hb : p.Spelled b)
    {s t : String} (hs : p.showExpr a = .ok s) (ht : p.showExpr b = .ok t) :
    ∃ x y, p.tree a = .ok x ∧ p.tree b = .ok y ∧
      (s = t ↔ x.reading Precedence.assignment = y.reading Precedence.assignment) ∧
      (x.Plain → y.Plain → s = t → x = y) := by
  obtain ⟨x, hx, hxs⟩ := exists_tree_of_showExpr ha hs
  obtain ⟨y, hy, hyt⟩ := exists_tree_of_showExpr hb ht
  have hiff : s = t ↔ x.reading Precedence.assignment = y.reading Precedence.assignment := by
    rw [← String.toList_inj, hxs.toList_eq, hyt.toList_eq]
    exact ExprTree.text_eq_iff hp hxs.regular hyt.regular
  refine ⟨x, y, hx, hy, hiff, fun hplain hplain' h => ?_⟩
  have hself : ∀ {u : ExprTree}, u.Plain → u.reading Precedence.assignment = u :=
    fun hu => ExprTree.reading_eq_self (hu.mono fun _ _ => ExprTree.PlainHere.settledHere)
  rw [← hself hplain, ← hself hplain', hiff.1 h]

end Program

/-- Expressions that are displayed alike: two minus signs and a decrement (at 3 and 4), and what a
    comparison gives, compared with `x` or combined with `x` in an assignment (at 6 and 8). The last
    two are the same difference. -/
def sampleAlike : Program where
  vars := ⟨#[{ name := "x", type := .int, kind := .ofMethod },
    { name := "y", type := .int, kind := .ofMethod }]⟩
  exprs := ⟨#[.var ⟨0⟩, .var ⟨1⟩, .unary .neg ⟨0⟩, .unary .neg ⟨2⟩, .increment .preDec ⟨0⟩,
    .binary .eq ⟨1⟩ ⟨0⟩, .compound .lt ⟨0⟩ ⟨5⟩, .binary .le ⟨0⟩ ⟨1⟩, .binary .eq ⟨7⟩ ⟨0⟩,
    .int 1, .binary .sub ⟨1⟩ ⟨9⟩, .binary .sub ⟨2⟩ ⟨10⟩, .binary .sub ⟨2⟩ ⟨10⟩]⟩

theorem sampleAlike_namesApart : sampleAlike.NamesApart := by
  constructor <;> decide

theorem sampleAlike_spelled {a : ExprId} (h : sampleAlike.checksAcyclic 9 (.expr a) = true) :
    sampleAlike.Spelled a := by
  refine ⟨(Program.acyclic_of_check h).2, fun e x _ hx => ?_⟩
  have hall : ∀ y ∈ sampleAlike.exprs.values, y.Spelled := by
    simp [sampleAlike, Arena.values, Expr.Spelled]
  exact hall x (Arena.mem_values_of_get? hx)

/-- The tree of the difference. -/
def sampleDifference : ExprTree :=
  .binary .sub (.unary .neg (.var ⟨0⟩)) (.binary .sub (.var ⟨1⟩) (.int 1))

theorem sampleDifference_plain : sampleDifference.Plain := by
  have hleaf : ∀ {k : Nat} {t : ExprTree}, t.PlainHere → t.parts = [] →
      t.Throughout (fun _ => ExprTree.PlainHere) k := fun ht hparts =>
    .intro ht fun q hq => absurd (hparts ▸ hq) List.not_mem_nil
  refine .intro trivial (List.forall_mem_cons.2 ⟨.intro trivial ?_, List.forall_mem_singleton.2 ?_⟩)
  · exact List.forall_mem_singleton.2 (hleaf trivial rfl)
  · exact .intro trivial (List.forall_mem_cons.2
      ⟨hleaf trivial rfl, List.forall_mem_singleton.2 (hleaf trivial rfl)⟩)

/-- The same difference twice is told by its text, and the two comparisons are read alike. -/
theorem Program.showExpr_eq_iff_alike :
    sampleAlike.NamesApart ∧ sampleAlike.Spelled ⟨11⟩ ∧ sampleAlike.Spelled ⟨12⟩ ∧
    sampleAlike.showExpr ⟨11⟩ = .ok "-x - (y - 1)" ∧
    sampleAlike.showExpr ⟨12⟩ = .ok "-x - (y - 1)" ∧
    (∃ x, sampleAlike.tree ⟨11⟩ = .ok x ∧ sampleAlike.tree ⟨12⟩ = .ok x) ∧
    ∃ x y, sampleAlike.tree ⟨6⟩ = .ok x ∧ sampleAlike.tree ⟨8⟩ = .ok y ∧
      x.reading Precedence.assignment = y.reading Precedence.assignment := by
  have hdifference : ∀ {a x}, a = ⟨11⟩ ∨ a = ⟨12⟩ → sampleAlike.tree a = .ok x → x.Plain := by
    intro a x ha hx
    have htree : sampleAlike.tree a = .ok sampleDifference := by
      rcases ha with rfl | rfl <;> rfl
    rw [← Except.ok.inj (htree.symm.trans hx)]
    exact sampleDifference_plain
  obtain ⟨x, y, hx, hy, _, hsame⟩ := showExpr_eq_iff sampleAlike_namesApart
    (sampleAlike_spelled (by decide)) (sampleAlike_spelled (by decide))
    (show sampleAlike.showExpr ⟨11⟩ = .ok "-x - (y - 1)" from rfl)
    (show sampleAlike.showExpr ⟨12⟩ = .ok "-x - (y - 1)" from rfl)
  obtain ⟨z, w, hz, hw, hread, _⟩ := showExpr_eq_iff sampleAlike_namesApart
    (sampleAlike_spelled (by decide)) (sampleAlike_spelled (by decide))
    (show sampleAlike.showExpr ⟨6⟩ = .ok "x <= y == x" from rfl)
    (show sampleAlike.showExpr ⟨8⟩ = .ok "x <= y == x" from rfl)
  obtain rfl := hsame (hdifference (.inl rfl) hx) (hdifference (.inr rfl) hy) rfl
  exact ⟨sampleAlike_namesApart, sampleAlike_spelled (by decide), sampleAlike_spelled (by decide),
    rfl, rfl, ⟨x, hx, hy⟩, z, w, hz, hw, hread.1 rfl⟩

/-- Two minus signs in front of a variable are displayed like its decrement, and an assignment that
    combines by `<` is displayed like a comparison. -/
theorem Program.showExpr_ambiguous :
    sampleAlike.NamesApart ∧
    (sampleAlike.Acyclic (.expr ⟨3⟩) ∧ sampleAlike.Spelled ⟨3⟩ ∧
      sampleAlike.Acyclic (.expr ⟨4⟩) ∧ sampleAlike.Spelled ⟨4⟩ ∧
      sampleAlike.showExpr ⟨3⟩ = .ok "--x" ∧ sampleAlike.showExpr ⟨4⟩ = .ok "--x" ∧
      sampleAlike.tree ⟨3⟩ = .ok (.unary .neg (.unary .neg (.var ⟨0⟩))) ∧
      sampleAlike.tree ⟨4⟩ = .ok (.increment .preDec (.var ⟨0⟩))) ∧
    (sampleAlike.Acyclic (.expr ⟨6⟩) ∧ sampleAlike.Spelled ⟨6⟩ ∧
      sampleAlike.Acyclic (.expr ⟨8⟩) ∧ sampleAlike.Spelled ⟨8⟩ ∧
      sampleAlike.showExpr ⟨6⟩ = .ok "x <= y == x" ∧ sampleAlike.showExpr ⟨8⟩ = .ok "x <= y == x" ∧
      sampleAlike.tree ⟨6⟩ = .ok (.compound .lt (.var ⟨0⟩) (.binary .eq (.var ⟨1⟩) (.var ⟨0⟩))) ∧
      sampleAlike.tree ⟨8⟩ =
        .ok (.binary .eq (.binary .le (.var ⟨0⟩) (.var ⟨1⟩)) (.var ⟨0⟩))) := by
  have hgood : ∀ {a : ExprId}, sampleAlike.checksAcyclic 9 (.expr a) = true →
      sampleAlike.Acyclic (.expr a) ∧ sampleAlike.Spelled a :=
    fun h => ⟨(acyclic_of_check h).1, sampleAlike_spelled h⟩
  have h3 := hgood (a := ⟨3⟩) (by decide)
  have h4 := hgood (a := ⟨4⟩) (by decide)
  have h6 := hgood (a := ⟨6⟩) (by decide)
  have h8 := hgood (a := ⟨8⟩) (by decide)
  exact ⟨sampleAlike_namesApart, ⟨h3.1, h3.2, h4.1, h4.2, rfl, rfl, rfl, rfl⟩,
    h6.1, h6.2, h8.1, h8.2, rfl, rfl, rfl, rfl⟩

end Dataflow
