import Dataflow.Proofs.Legibility

/-!
# What the text of a tree tells

The lexemes of a text tell the tree, operator by operator: an assignment is split at its first
operator, a binary operation at the last of the operators that bind least tightly.

Two texts can be taken for something else than they are. A minus sign in front of a negated place
reads as a decrement, and `x <= y` may be a comparison or an assignment that combines `x` and `y` by
a comparison. A tree is *settled* if it has neither (`ExprTree.SettledHere`), except that such an
assignment is clear where another one follows or where a comparison would not be in parentheses.

* `ExprTree.Legible`: nodes that are regular and settled;
* `ExprTree.told`: the lexemes of a tree of legible nodes tell the tree.
-/

namespace Dataflow

/-! ### Splitting lexemes at an operator -/

section Splits

variable {l l' r r' : List Lexeme} {b b' : Lexeme}

/-- The first operator between operands. -/
theorem split_at_first (hb : b.isBetween = true) (hb' : b'.isBetween = true)
    (hl : ∀ x ∈ l, x.isBetween = false) (hl' : ∀ x ∈ l', x.isBetween = false)
    (h : l ++ b :: r = l' ++ b' :: r') : l = l' ∧ b = b' ∧ r = r' := by
  have hsplit := append_inj_of_forall (P := fun x => x.isBetween = true)
    (fun x hx => by simp [hl x hx]) (fun x hx => by simp [hl' x hx]) (by simpa using hb)
    (by simpa using hb') h
  exact ⟨hsplit.1, (List.cons.inj hsplit.2).1, (List.cons.inj hsplit.2).2⟩

/-- The last one of the operators that bind least tightly. -/
theorem split_at_weakest (hl : ∀ x ∈ l, b.strength ≤ x.strength)
    (hr : ∀ x ∈ r, b.strength < x.strength) (hl' : ∀ x ∈ l', b'.strength ≤ x.strength)
    (hr' : ∀ x ∈ r', b'.strength < x.strength) (h : l ++ b :: r = l' ++ b' :: r') :
    l = l' ∧ b = b' ∧ r = r' := by
  have hweakest : ∀ {l r : List Lexeme} {b : Lexeme}, (∀ x ∈ l, b.strength ≤ x.strength) →
      (∀ x ∈ r, b.strength < x.strength) → ∀ x ∈ l ++ b :: r, b.strength ≤ x.strength := by
    intro l r b hl hr x hx
    rw [List.mem_append, List.mem_cons] at hx
    rcases hx with hx | rfl | hx
    · exact hl x hx
    · exact Nat.le_refl _
    · exact Nat.le_of_lt (hr x hx)
  have hle : b.strength ≤ b'.strength := hweakest hl hr b' (h ▸ by simp)
  have hge : b'.strength ≤ b.strength := hweakest hl' hr' b (h ▸ by simp)
  rcases List.append_eq_append_iff.1 h with ⟨w, rfl, hw⟩ | ⟨w, rfl, hw⟩
  · cases w with
    | nil => exact ⟨(List.append_nil l).symm, List.cons.inj hw⟩
    | cons a w =>
      obtain ⟨rfl, rfl⟩ := List.cons.inj hw
      exact absurd (hr b' (by simp)) (Nat.not_lt.2 hge)
  · cases w with
    | nil => exact ⟨List.append_nil l', (List.cons.inj hw).imp Eq.symm Eq.symm⟩
    | cons a w =>
      obtain ⟨rfl, rfl⟩ := List.cons.inj hw
      exact absurd (hr' b (by simp)) (Nat.not_lt.2 hle)

end Splits

theorem UnaryOp.sign_inj {op op' : UnaryOp} (h : op.sign = op'.sign) : op = op' := by
  revert h
  cases op <;> cases op' <;> decide

namespace ExprTree

variable {p : Program} {k : Nat} {t x y : ExprTree}

/-! ### Settled trees -/

/-- Whether an assignment of `value` that is written like a comparison cannot be one: another
    assignment follows, or it is in parentheses and a comparison would not be. -/
def AssignsClearly (least : Nat) (value : ExprTree) : Prop :=
  value.precedence = Precedence.assignment ∨
    Precedence.assignment < least ∧ least ≤ BinaryOp.le.precedence ∧ least ≤ value.precedence

instance (least : Nat) (value : ExprTree) : Decidable (AssignsClearly least value) :=
  inferInstanceAs (Decidable (_ ∨ _))

/-- A node that is what its text is taken for: not a minus sign in front of a negated place, and not
    an assignment that is written like a comparison, unless it clearly assigns. -/
def SettledHere (least : Nat) : ExprTree → Prop
  | unary .neg (unary .neg t) => t.isPlace = false
  | compound op _ value => op.orEqual = none ∨ AssignsClearly least value
  | _ => True

/-- A node that is regular and settled. -/
def Legible (p : Program) (least : Nat) (t : ExprTree) : Prop := t.Regular p ∧ t.SettledHere least

theorem Throughout.regular (h : t.Throughout (Legible p) k) :
    t.Throughout (fun _ => Regular p) k :=
  h.mono fun _ _ h => h.1

/-- The lexemes of a tree tell it from all other trees in the same place. -/
def Told (p : Program) (x : ExprTree) : Prop :=
  ∀ k y, x.Throughout (Legible p) k → y.Throughout (Legible p) k →
    (x.precedence < k ↔ y.precedence < k) → x.lexemes p = y.lexemes p → x = y

/-- No tree is written in parentheses. -/
theorem lexemes_ne_group (t : ExprTree) (square : Bool) (texts : List (List Char)) :
    t.lexemes p ≠ [.group square texts] := by
  have hmem : ∃ x ∈ t.lexemes p, x ≠ .group square texts := by
    cases t with
    | bool b => cases b <;> exact ⟨_, List.mem_cons_self, by simp⟩
    | field => exact ⟨.mark '.', List.mem_append_right _ List.mem_cons_self, by simp⟩
    | binary | assign | compound =>
      exact ⟨_, List.mem_append_right _ List.mem_cons_self, by simp⟩
    | increment op target =>
      refine ⟨.mark op.sign, ?_, by simp⟩
      rw [lexemes_increment]
      split <;> simp
    | callOn => exact ⟨.mark '.', List.mem_append_right _ List.mem_cons_self, by simp⟩
    | _ => exact ⟨_, List.mem_cons_self, by simp⟩
  obtain ⟨x, hx, hne⟩ := hmem
  exact fun h => hne (List.mem_singleton.1 (h ▸ hx))

namespace Told

variable (hp : p.NamesApart) (h : x.Told p)
include hp h

theorem eq_of_text (hx : x.Throughout (Legible p) k) (hy : y.Throughout (Legible p) k)
    (hprec : x.precedence < k ↔ y.precedence < k) (heq : x.text p = y.text p) : x = y :=
  h k y hx hy hprec (textOf_inj (x.lexical hp hx.regular) (y.lexical hp hy.regular) heq)

theorem eq_of_operand (hx : x.Throughout (Legible p) k) (hy : y.Throughout (Legible p) k)
    (heq : x.operand p k = y.operand p k) : x = y := by
  by_cases hxk : x.precedence < k
  · rw [operand_of_lt hxk] at heq
    by_cases hyk : y.precedence < k
    · rw [operand_of_lt hyk] at heq
      exact h.eq_of_text hp hx hy (iff_of_true hxk hyk) (by simpa using heq)
    · rw [operand_of_le (Nat.not_lt.1 hyk)] at heq
      exact absurd heq.symm (y.lexemes_ne_group _ _)
  · rw [operand_of_le (Nat.not_lt.1 hxk)] at heq
    by_cases hyk : y.precedence < k
    · rw [operand_of_lt hyk] at heq
      exact absurd heq (x.lexemes_ne_group _ _)
    · rw [operand_of_le (Nat.not_lt.1 hyk)] at heq
      exact h k y hx hy (iff_of_false hxk hyk) heq

end Told

theorem eq_of_map_text (hp : p.NamesApart) {ts us : List ExprTree} (hts : ∀ t ∈ ts, t.Told p)
    (hts' : ∀ t ∈ ts, t.Throughout (Legible p) Precedence.assignment)
    (hus : ∀ u ∈ us, u.Throughout (Legible p) Precedence.assignment)
    (h : ts.map (text p) = us.map (text p)) : ts = us := by
  induction ts generalizing us with
  | nil => exact (List.map_eq_nil_iff.1 h.symm).symm
  | cons t ts ih =>
    cases us with
    | nil => cases h
    | cons u us =>
      rw [List.forall_mem_cons] at hts hts' hus
      obtain ⟨htu, hrest⟩ := List.cons.inj h
      rw [hts.1.eq_of_text hp hts'.1 hus.1 (iff_of_false (Nat.not_lt.2 t.one_le_precedence)
        (Nat.not_lt.2 u.one_le_precedence)) htu, ih hts.2 hts'.2 hus.2 hrest]

/-! ### Operators between operands -/

theorem precedence_of_isPlace (h : t.isPlace = true) : t.precedence = Precedence.primary := by
  cases t with
  | var | field => rfl
  | _ => cases h

theorem operand_of_isPlace (h : t.isPlace = true) (hk : k ≤ Precedence.primary) :
    t.operand p k = t.lexemes p :=
  operand_of_le (by rwa [precedence_of_isPlace h])

/-- An assignment is told by its first operator. -/
theorem split_assignment {target target' value value' : ExprTree} {s s' : List Char}
    (ht : target.isPlace = true) (ht' : target'.isPlace = true)
    (h : target.operand p (Precedence.assignment + 1) ++ .between s :: value.lexemes p =
      target'.operand p (Precedence.assignment + 1) ++ .between s' :: value'.lexemes p) :
    target.operand p (Precedence.assignment + 1) = target'.operand p (Precedence.assignment + 1) ∧
      s = s' ∧ value.lexemes p = value'.lexemes p := by
  have hfree : ∀ {t : ExprTree}, t.isPlace = true →
      ∀ x ∈ t.operand p (Precedence.assignment + 1), x.isBetween = false := by
    intro t ht x hx
    rw [operand_of_isPlace ht (by decide)] at hx
    exact isBetween_of_mem (by rw [precedence_of_isPlace ht]; decide) hx
  obtain ⟨htarget, hs, hvalue⟩ := split_at_first rfl rfl (hfree ht) (hfree ht') h
  exact ⟨htarget, Lexeme.between.inj hs, hvalue⟩

theorem of_precedence_eq_assignment (h : x.precedence = Precedence.assignment) :
    (∃ target value, x = assign target value) ∨
      ∃ op target value, x = compound op target value := by
  cases x with
  | assign target value => exact .inl ⟨target, value, rfl⟩
  | compound op target value => exact .inr ⟨op, target, value, rfl⟩
  | binary op =>
    have hfive := op.five_le_precedence
    rw [show op.precedence = Precedence.assignment from h] at hfive
    exact absurd hfive (by decide)
  | increment op => cases op <;> cases h
  | _ => cases h

/-- The value of an assignment is one of its parts. -/
theorem mem_parts_value (op : BinaryOp) (target value : ExprTree) :
    (Precedence.assignment, value) ∈ (compound op target value).parts :=
  List.mem_cons_of_mem _ List.mem_cons_self

/-- A settled assignment that nothing surrounds has an operator that only assignments have. -/
theorem exists_strength_eq (t : ExprTree) : t.Throughout (Legible p) Precedence.assignment →
    t.precedence = Precedence.assignment →
    ∃ x ∈ t.lexemes p, x.strength = Precedence.assignment := by
  induction t using induct with
  | step t ih =>
    intro ht hprec
    obtain ⟨target, value, rfl⟩ | ⟨op, target, value, rfl⟩ := of_precedence_eq_assignment hprec
    · exact ⟨.between ['='], by simp [lexemes_assign], rfl⟩
    · rcases ht.here.2 with hop | hvalue | hsurrounded
      · exact ⟨_, by rw [lexemes_compound]; simp, Lexeme.strength_compound hop⟩
      · have hmem := mem_parts_value op target value
        obtain ⟨x, hx, hstrength⟩ := ih _ hmem (ht.part hmem) hvalue
        exact ⟨x, by simp [lexemes_compound, hx], hstrength⟩
      · exact absurd hsurrounded.1 (Nat.lt_irrefl _)

/-- To the left of a binary operator, nothing binds less tightly. -/
theorem le_strength_lhs (op : BinaryOp) (l : ExprTree) :
    ∀ x ∈ l.operand p op.precedence, (Lexeme.between op.symbol.toList).strength ≤ x.strength := by
  rw [Lexeme.strength_between]
  exact le_strength_operand l.le_strength (Nat.lt_of_lt_of_le (by decide) op.five_le_precedence)
    (op.precedence_le_twelve.trans (by decide))

/-- To the right of a binary operator, everything binds more tightly. -/
theorem lt_strength_rhs (op : BinaryOp) (r : ExprTree) :
    ∀ x ∈ r.operand p (op.precedence + 1),
      (Lexeme.between op.symbol.toList).strength < x.strength := by
  rw [Lexeme.strength_between]
  exact le_strength_operand r.le_strength
    (Nat.lt_succ_of_le (Nat.le_trans (by decide) op.five_le_precedence))
    ((Nat.succ_le_succ op.precedence_le_twelve).trans (by decide))

/-- A settled assignment is not written like a binary operation in the same place. -/
theorem lexemes_ne_binary {op : BinaryOp} {lhs rhs : ExprTree} (hx : x.Throughout (Legible p) k)
    (hassign : x.precedence = Precedence.assignment)
    (hprec : x.precedence < k ↔ op.precedence < k) :
    x.lexemes p ≠ (binary op lhs rhs).lexemes p := by
  intro h
  have hfive := op.five_le_precedence
  -- The operators of a binary operation are not those that only assignments have.
  have hweak : ∀ z ∈ x.lexemes p, z.strength ≠ Precedence.assignment := by
    intro z hz hstrength
    have hle : op.precedence ≤ z.strength :=
      (binary op lhs rhs).le_strength (Nat.lt_of_lt_of_le (by decide) hfive) z (h ▸ hz)
    rw [hstrength] at hle
    exact absurd (hfive.trans hle) (by decide)
  obtain ⟨target, value, rfl⟩ | ⟨o, target, value, rfl⟩ := of_precedence_eq_assignment hassign
  · exact hweak (.between ['=']) (by simp [lexemes_assign]) rfl
  cases ho : o.orEqual with
  | none =>
    exact hweak _ (by rw [lexemes_compound]; simp) (Lexeme.strength_compound ho)
  | some c =>
    rcases hx.here.2 with hnone | hvalue | ⟨hk, hkle, hkvalue⟩
    · cases ho.symm.trans hnone
    · obtain ⟨z, hz, hstrength⟩ :=
        value.exists_strength_eq (hx.part (mem_parts_value o target value)) hvalue
      exact hweak z (by simp [lexemes_compound, hz]) hstrength
    · -- In parentheses that a comparison would not have, no operator binds as loosely as those of
      -- a binary operation that would have them.
      have hstrong : ∀ z ∈ (compound o target value).lexemes p, k ≤ z.strength := by
        intro z hz
        rw [lexemes_compound, operand_of_isPlace hx.here.1 (by decide), List.mem_append,
          List.mem_cons] at hz
        rcases hz with hz | rfl | hz
        · have htarget := precedence_of_isPlace hx.here.1
          have hle := target.le_strength (htarget ▸ by decide) z hz
          exact (hkle.trans (by decide)).trans (htarget ▸ hle)
        · rw [BinaryOp.symbol_append_eq ho, Lexeme.strength_between,
            BinaryOp.precedence_of_orEqual ho]
          exact hkle
        · exact hkvalue.trans (value.le_strength (hk.trans_le hkvalue) z hz)
      have hle := hstrong (.between op.symbol.toList) (h ▸ by simp [lexemes_binary])
      rw [Lexeme.strength_between] at hle
      exact absurd (hprec.1 (hassign ▸ hk)) (Nat.not_lt.2 hle)

/-! ### Operands -/

section Parts

variable (hp : p.NamesApart) (ih : ∀ q ∈ x.parts, q.2.Told p) (hx : x.Throughout (Legible p) k)
  (hy : y.Throughout (Legible p) k)
include hp ih hx hy

/-- Operands in the same place are told by how they are written. -/
theorem eq_of_parts {n : Nat} {l l' : ExprTree} (hl : (n, l) ∈ x.parts) (hl' : (n, l') ∈ y.parts)
    (h : l.operand p n = l'.operand p n) : l = l' :=
  (ih _ hl).eq_of_operand hp (hx.part hl) (hy.part hl') h

theorem eq_of_target_value {t t' v v' : ExprTree}
    (hparts : x.parts = [(Precedence.assignment + 1, t), (Precedence.assignment, v)])
    (hparts' : y.parts = [(Precedence.assignment + 1, t'), (Precedence.assignment, v')])
    (ht : t.operand p (Precedence.assignment + 1) = t'.operand p (Precedence.assignment + 1))
    (hv : v.lexemes p = v'.lexemes p) : t = t' ∧ v = v' := by
  have hv : v.operand p Precedence.assignment = v'.operand p Precedence.assignment := by
    simpa using hv
  constructor
  · exact eq_of_parts hp ih hx hy (by simp [hparts]) (by simp [hparts']) ht
  · exact eq_of_parts hp ih hx hy (by simp [hparts]) (by simp [hparts']) hv

theorem eq_of_assignments (hxa : x.precedence = Precedence.assignment)
    (hya : y.precedence = Precedence.assignment) (heq : x.lexemes p = y.lexemes p) : x = y := by
  have hplain : ∀ op : BinaryOp, op.symbol.toList ++ ['='] ≠ ['='] := by
    intro op
    cases op <;> decide
  obtain ⟨t, v, rfl⟩ | ⟨op, t, v, rfl⟩ := of_precedence_eq_assignment hxa
  · obtain ⟨t', v', rfl⟩ | ⟨op', t', v', rfl⟩ := of_precedence_eq_assignment hya
    · rw [lexemes_assign, lexemes_assign] at heq
      obtain ⟨ht, _, hv⟩ := split_assignment hx.here.1 hy.here.1 heq
      obtain ⟨rfl, rfl⟩ := eq_of_target_value hp ih hx hy rfl rfl ht hv
      rfl
    · rw [lexemes_assign, lexemes_compound] at heq
      exact absurd (split_assignment hx.here.1 hy.here.1 heq).2.1.symm (hplain op')
  · obtain ⟨t', v', rfl⟩ | ⟨op', t', v', rfl⟩ := of_precedence_eq_assignment hya
    · rw [lexemes_assign, lexemes_compound] at heq
      exact absurd (split_assignment hx.here.1 hy.here.1 heq).2.1 (hplain op)
    · rw [lexemes_compound, lexemes_compound] at heq
      obtain ⟨ht, hop, hv⟩ := split_assignment hx.here.1 hy.here.1 heq
      obtain ⟨rfl, rfl⟩ := eq_of_target_value hp ih hx hy rfl rfl ht hv
      rw [BinaryOp.symbol_inj (List.append_cancel_right hop)]

theorem eq_of_calls {m m' : MethodId} {args args' : List ExprTree}
    (hm : ∃ decl, p.methods.get? m = some decl) (hm' : ∃ decl, p.methods.get? m' = some decl)
    (hargs : ∀ a ∈ args, (Precedence.assignment, a) ∈ x.parts)
    (hargs' : ∀ a ∈ args', (Precedence.assignment, a) ∈ y.parts)
    (h : [Lexeme.word (p.methodText m), .group false (args.map (text p))] =
      [.word (p.methodText m'), .group false (args'.map (text p))]) : m = m' ∧ args = args' := by
  simp only [List.cons.injEq, Lexeme.word.injEq, Lexeme.group.injEq, true_and, and_true] at h
  refine ⟨hp.eq_of_methodText_eq hm hm' h.1, eq_of_map_text hp ?_ ?_ ?_ h.2⟩
  · exact fun a ha => ih _ (hargs a ha)
  · exact fun a ha => hx.part (hargs a ha)
  · exact fun a ha => hy.part (hargs' a ha)

end Parts

/-! ### Operators in front -/

theorem of_precedence_eq_leading (h : x.precedence = Precedence.leading) :
    (∃ op t, x = unary op t) ∨ ∃ op t, x = increment op t ∧ op.leads = true := by
  cases x with
  | unary op t => exact .inl ⟨op, t, rfl⟩
  | increment op t =>
    refine .inr ⟨op, t, rfl, ?_⟩
    cases op <;> first | rfl | cases h
  | binary op =>
    have htwelve := op.precedence_le_twelve
    rw [show op.precedence = Precedence.leading from h] at htwelve
    exact absurd htwelve (by decide)
  | _ => cases h

/-- The only signs in front of operands that are written alike to begin with. -/
theorem eq_of_kind_unary {op : UnaryOp} {op' : IncrementOp} {a t : ExprTree}
    (h : (unary op a).kind = (increment op' t).kind) : op = .neg ∧ op' = .preDec := by
  obtain ⟨hleads, hsign⟩ := Kind.signed.inj h
  revert hleads hsign
  cases op <;> cases op' <;> decide

theorem eq_of_kind_increment {op op' : IncrementOp} {t t' : ExprTree}
    (h : (increment op t).kind = (increment op' t').kind) : op = op' := by
  obtain ⟨hleads, hsign⟩ := Kind.signed.inj h
  revert hleads hsign
  cases op <;> cases op' <;> decide

/-- A minus sign in front of a settled operand is not taken for part of a decrement. -/
theorem lexemes_ne_decrement (hp : p.NamesApart) {a t : ExprTree} (ha : a.Told p)
    (hx : (unary .neg a).Throughout (Legible p) k)
    (hy : (increment .preDec t).Throughout (Legible p) k) :
    (unary .neg a).lexemes p ≠ (increment .preDec t).lexemes p := by
  intro h
  have hplace : t.isPlace = true := hy.here.1
  have hneg : (unary .neg t).Throughout (Legible p) Precedence.leading := by
    refine .intro ⟨trivial, ?_⟩ fun q hq => hy.part hq
    cases t with
    | unary => cases hplace
    | _ => trivial
  have hoperand : a.operand p Precedence.leading = (unary .neg t).operand p Precedence.leading := by
    rw [operand_of_le (show Precedence.leading ≤ (unary .neg t).precedence from Nat.le_refl _)]
    exact (List.cons.inj h).2
  obtain rfl := ha.eq_of_operand hp (hx.part List.mem_cons_self) hneg hoperand
  have hsettled : t.isPlace = false := hx.here.2
  rw [hplace] at hsettled
  cases hsettled

/-- Nor is the first sign of a decrement taken for a minus sign in front of a settled operand. -/
theorem lexemes_decrement_ne (hp : p.NamesApart) {a t : ExprTree} (ht : t.Told p)
    (hx : (increment .preDec t).Throughout (Legible p) k)
    (hy : (unary .neg a).Throughout (Legible p) k) :
    (increment .preDec t).lexemes p ≠ (unary .neg a).lexemes p := by
  intro h
  have hplace : t.isPlace = true := hx.here.1
  have ha : a.Throughout (Legible p) Precedence.leading := hy.part List.mem_cons_self
  have hoperand : .mark '-' :: t.operand p Precedence.leading = a.operand p Precedence.leading :=
    (List.cons.inj h).2
  by_cases hloose : a.precedence < Precedence.leading
  · rw [operand_of_lt hloose] at hoperand
    cases hoperand
  rw [operand_of_le (Nat.not_lt.1 hloose)] at hoperand
  obtain hlead | hlead : Precedence.trailing ≤ a.precedence ∨ a.precedence = Precedence.leading :=
    (Nat.not_lt.1 hloose).lt_or_eq.imp id Eq.symm
  · have hhead : (a.lexemes p).head? = some (.mark '-') := by
      rw [← hoperand]
      rfl
    exact a.head_ne_mark hlead '-' hhead
  obtain ⟨op, b, rfl⟩ | ⟨op, b, rfl, hleads⟩ := of_precedence_eq_leading hlead
  · obtain ⟨hsign, hb⟩ := List.cons.inj hoperand
    obtain rfl : op = .neg := UnaryOp.sign_inj (Lexeme.mark.inj hsign).symm
    have htb : t = b := Told.eq_of_operand hp ht (k := Precedence.leading)
      (hx.part List.mem_cons_self) (ha.part List.mem_cons_self) hb
    subst htb
    have hsettled : t.isPlace = false := hy.here.2
    rw [hplace] at hsettled
    cases hsettled
  · rw [lexemes_increment, if_pos hleads, operand_of_isPlace hplace (by decide)] at hoperand
    have hhead : (t.lexemes p).head? = some (.mark op.sign) := by
      rw [(List.cons.inj hoperand).2]
      rfl
    exact t.head_ne_mark (by rw [precedence_of_isPlace hplace]; decide) _ hhead

/-! ### The text tells the tree -/

/-- The lexemes of a tree of legible nodes tell the tree. -/
theorem told (hp : p.NamesApart) (x : ExprTree) : x.Told p := by
  induction x using induct with
  | step x ih =>
    intro k y hx hy hprec heq
    have hkind : x.kind = y.kind := by
      rw [← ofLexemes_lexemes hp hx.here.1, ← ofLexemes_lexemes hp hy.here.1, heq]
    have hpart : ∀ {n l l'}, (n, l) ∈ x.parts → (n, l') ∈ y.parts →
        l.operand p n = l'.operand p n → l = l' := eq_of_parts hp ih hx hy
    cases x with
    | int m =>
      cases y with
      | int n =>
        have htext : (toString m.toInt).toList = (toString n.toInt).toList := by
          simpa [lexemes] using heq
        rw [Int64.toInt_inj.1 (toList_toString_inj hx.here.1 hy.here.1 htext)]
      | _ => cases hkind
    | bool b =>
      cases y with
      | bool c => rw [Kind.truth.inj hkind]
      | _ => cases hkind
    | null =>
      cases y with
      | null => rfl
      | _ => cases hkind
    | var v =>
      cases y with
      | var w =>
        have htext : p.varText v = p.varText w := by simpa [lexemes] using heq
        rw [hp.eq_of_varText_eq hx.here.1 hy.here.1 htext]
      | _ => cases hkind
    | field object v =>
      cases y with
      | field object' w =>
        rw [lexemes_field, lexemes_field] at heq
        obtain ⟨hobject, hrest⟩ := List.append_inj' heq rfl
        have htext : p.varText v = p.varText w := by simpa using hrest
        rw [hpart List.mem_cons_self List.mem_cons_self hobject,
          hp.eq_of_varText_eq hx.here.1 hy.here.1 htext]
      | _ => cases hkind
    | unary op a =>
      cases y with
      | unary op' a' =>
        rw [UnaryOp.sign_inj (Kind.signed.inj hkind).2,
          hpart List.mem_cons_self List.mem_cons_self (List.cons.inj heq).2]
      | increment op' t =>
        obtain ⟨rfl, rfl⟩ := eq_of_kind_unary hkind
        exact absurd heq (lexemes_ne_decrement hp (ih _ List.mem_cons_self) hx hy)
      | _ => cases hkind
    | increment op t =>
      cases y with
      | unary op' a =>
        obtain ⟨rfl, rfl⟩ := eq_of_kind_unary hkind.symm
        exact absurd heq (lexemes_decrement_ne hp (ih _ List.mem_cons_self) hx hy)
      | increment op' t' =>
        obtain rfl : op = op' := eq_of_kind_increment hkind
        rw [lexemes_increment, lexemes_increment] at heq
        split at heq
        · rw [hpart List.mem_cons_self List.mem_cons_self (List.cons.inj (List.cons.inj heq).2).2]
        · rw [hpart List.mem_cons_self List.mem_cons_self (List.append_inj' heq rfl).1]
      | _ => cases hkind
    | binary op l r =>
      cases y with
      | binary op' l' r' =>
        obtain ⟨hl, hop, hr⟩ := split_at_weakest (le_strength_lhs op l) (lt_strength_rhs op r)
          (le_strength_lhs op' l') (lt_strength_rhs op' r') heq
        obtain rfl := BinaryOp.symbol_inj (Lexeme.between.inj hop)
        rw [hpart List.mem_cons_self List.mem_cons_self hl,
          hpart (List.mem_cons_of_mem _ List.mem_cons_self)
            (List.mem_cons_of_mem _ List.mem_cons_self) hr]
      | assign | compound => exact absurd heq.symm (lexemes_ne_binary hy rfl hprec.symm)
      | _ => cases hkind
    | assign | compound =>
      cases y with
      | binary => exact absurd heq (lexemes_ne_binary hx rfl hprec)
      | assign | compound => exact eq_of_assignments hp ih hx hy rfl rfl heq
      | _ => cases hkind
    | call m args =>
      cases y with
      | call m' args' =>
        rw [lexemes_call, lexemes_call] at heq
        obtain ⟨rfl, rfl⟩ := eq_of_calls hp ih hx hy hx.here.1 hy.here.1
          (fun a ha => List.mem_map_of_mem ha) (fun a ha => List.mem_map_of_mem ha) heq
        rfl
      | _ => cases hkind
    | callOn receiver m args =>
      cases y with
      | callOn receiver' m' args' =>
        rw [lexemes_callOn, lexemes_callOn] at heq
        obtain ⟨hreceiver, hrest⟩ := List.append_inj' heq rfl
        obtain ⟨rfl, rfl⟩ := eq_of_calls hp ih hx hy hx.here.1 hy.here.1
          (fun a ha => List.mem_cons_of_mem _ (List.mem_map_of_mem ha))
          (fun a ha => List.mem_cons_of_mem _ (List.mem_map_of_mem ha)) (List.cons.inj hrest).2
        rw [hpart List.mem_cons_self List.mem_cons_self hreceiver]
      | _ => cases hkind
    | newObject c =>
      cases y with
      | newObject c' =>
        have htext : c.toList = c'.toList := by simpa [lexemes] using heq
        rw [String.toList_inj.1 htext]
      | _ => cases hkind
    | newArray element length =>
      cases y with
      | newArray element' length' =>
        obtain ⟨helement, hrest⟩ := List.append_inj' (List.cons.inj heq).2 rfl
        have htext : length.text p = length'.text p := by simpa [text] using hrest
        have hlength : length = length' :=
          Told.eq_of_text hp (k := Precedence.assignment) (ih _ List.mem_cons_self)
            (hx.part List.mem_cons_self) (hy.part List.mem_cons_self)
            (iff_of_false (Nat.not_lt.2 length.one_le_precedence)
              (Nat.not_lt.2 length'.one_le_precedence)) htext
        rw [Ty.lexemes_inj hx.here.1 hy.here.1 helement, hlength]
      | _ => cases hkind

end ExprTree

end Dataflow
