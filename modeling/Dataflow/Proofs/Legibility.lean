import Dataflow.Proofs.ExpressionTrees

/-!
# What lexemes show of a tree

The text of a tree consists of lexemes, if names are names and numbers have no sign. The operators
between operands show how tightly the tree binds, and the first and last lexemes what it is.

* `ExprTree.lexical`: regular trees are written in lexemes;
* `ExprTree.le_strength`: outside parentheses, no operator binds less tightly than the outermost;
* `ExprTree.ofLexemes_lexemes`: the lexemes of a regular tree show what kind of tree it is.
-/

namespace Dataflow

/-! ### Names and types -/

namespace Arena

variable {name : String} {α β : Type} {a : Arena name α} {h k : Handle name} {x y : α}

theorem mem_values_of_get? (hx : a.get? h = some x) : x ∈ a.values := by
  rw [values, Array.mem_toList_iff]
  exact Array.mem_of_getElem? hx

/-- Slots that differ in something tell their handles. -/
theorem eq_of_nodup_map {f : α → β} (hnodup : (a.values.map f).Nodup) (hx : a.get? h = some x)
    (hy : a.get? k = some y) (hxy : f x = f y) : h = k := by
  have hfind : ∀ {j z}, a.get? j = some z → (a.values.map f)[j.index]? = some (f z) := by
    intro j z hz
    rw [List.getElem?_map, values, Array.getElem?_toList]
    exact congrArg (Option.map f) hz
  obtain ⟨hi, hfx⟩ := List.getElem?_eq_some_iff.1 (hfind hx)
  obtain ⟨hj, hfy⟩ := List.getElem?_eq_some_iff.1 (hfind hy)
  exact Handle.index_inj.1 (hnodup.getElem_inj_iff.1 (hfx.trans (hxy.trans hfy.symm)))

end Arena

theorem IsName.ne_of_mem {s : String} {w : List Char} (h : IsName s) (hw : w ∈ reservedWords) :
    s.toList ≠ w :=
  fun heq => h.2.2.2 (heq ▸ hw)

theorem IsName.valid {s : String} (h : IsName s) : (Lexeme.word s.toList).Valid :=
  ⟨h.1, h.2.1, h.ne_of_mem (by decide)⟩

namespace Program.NamesApart

variable {p : Program} (hp : p.NamesApart)
include hp

theorem isName_varText {v : VarId} (hv : ∃ x, p.vars.get? v = some x) :
    ∃ s, IsName s ∧ p.varText v = s.toList := by
  obtain ⟨x, hx⟩ := hv
  exact ⟨x.name, hp.isName_var x (Arena.mem_values_of_get? hx), by rw [varText, hx]; rfl⟩

theorem isName_methodText {m : MethodId} (hm : ∃ x, p.methods.get? m = some x) :
    ∃ s, IsName s ∧ p.methodText m = s.toList := by
  obtain ⟨x, hx⟩ := hm
  exact ⟨x.name, hp.isName_method x (Arena.mem_values_of_get? hx), by rw [methodText, hx]; rfl⟩

theorem eq_of_varText_eq {v w : VarId} (hv : ∃ x, p.vars.get? v = some x)
    (hw : ∃ x, p.vars.get? w = some x) (h : p.varText v = p.varText w) : v = w := by
  obtain ⟨x, hx⟩ := hv
  obtain ⟨y, hy⟩ := hw
  rw [varText, varText, hx, hy] at h
  exact Arena.eq_of_nodup_map hp.nodup_vars hx hy (String.toList_inj.1 h)

theorem eq_of_methodText_eq {m n : MethodId} (hm : ∃ x, p.methods.get? m = some x)
    (hn : ∃ x, p.methods.get? n = some x) (h : p.methodText m = p.methodText n) : m = n := by
  obtain ⟨x, hx⟩ := hm
  obtain ⟨y, hy⟩ := hn
  rw [methodText, methodText, hx, hy] at h
  exact Arena.eq_of_nodup_map hp.nodup_methods hx hy (String.toList_inj.1 h)

end Program.NamesApart

theorem Ty.lexical_lexemes {ty : Ty} (h : ty.Named) : Lexical ty.lexemes := by
  induction ty with
  | int | boolean | void => exact .singleton (by decide)
  | object className => exact .singleton (IsName.valid h)
  | array element ih =>
    refine (ih h).append (.singleton ?_) ?_
    · exact fun u hu => absurd hu List.not_mem_nil
    · exact fun y hy => Option.some.inj hy ▸ rfl

theorem Ty.lexemes_array_ne (element : Ty) (w : List Char) :
    element.array.lexemes ≠ [.word w] := by
  intro h
  simpa [lexemes] using congrArg List.getLast? h

theorem Ty.lexemes_inj {ty ty' : Ty} (h : ty.Named) (h' : ty'.Named)
    (heq : ty.lexemes = ty'.lexemes) : ty = ty' := by
  have hname : ∀ {c w}, IsName c → w ∈ reservedWords → [Lexeme.word c.toList] ≠ [.word w] :=
    fun hc hw heq => hc.ne_of_mem hw (by simpa using heq)
  induction ty generalizing ty' with
  | int | boolean | void =>
    cases ty' with
    | object c => exact absurd heq.symm (hname h' (by decide))
    | array element => exact absurd heq.symm (lexemes_array_ne element _)
    | _ => first | rfl | cases heq
  | object c =>
    cases ty' with
    | object c' =>
      have hc : c.toList = c'.toList := by simpa [lexemes] using heq
      rw [String.toList_inj.1 hc]
    | array element => exact absurd heq.symm (lexemes_array_ne element _)
    | int | boolean | void => exact absurd heq (hname h (by decide))
  | array element ih =>
    cases ty' with
    | array element' =>
      have hinner : element.lexemes = element'.lexemes := (List.append_inj' heq rfl).1
      rw [ih h (show element'.Named from h') hinner]
    | _ => exact absurd heq (lexemes_array_ne element _)

/-! ### Trees are made of lexemes -/

theorem toList_toString {n : Int} (h : 0 ≤ n) :
    (toString n).toList = Nat.toDigits 10 n.toNat := by
  obtain ⟨m, rfl⟩ := Int.eq_ofNat_of_zero_le h
  exact Nat.toList_repr

theorem isDigit_of_mem_toList {n : Int} (h : 0 ≤ n) {c : Char} (hc : c ∈ (toString n).toList) :
    c.isDigit = true := by
  rw [toList_toString h] at hc
  exact Nat.isDigit_of_mem_toDigits (by decide) (by decide) hc

theorem toList_toString_inj {m n : Int} (hm : 0 ≤ m) (hn : 0 ≤ n)
    (h : (toString m).toList = (toString n).toList) : m = n := by
  have hread : ∀ k : Nat, Nat.ofDigitChars 10 (Nat.toDigits 10 k) 0 = k :=
    fun _ => Nat.ofDigitChars_toDigits (by decide) (by decide)
  rw [toList_toString hm, toList_toString hn] at h
  rw [← Int.toNat_of_nonneg hm, ← Int.toNat_of_nonneg hn, ← hread m.toNat, h, hread]

theorem valid_number {n : Int} (h : 0 ≤ n) : (Lexeme.word (toString n).toList).Valid := by
  have hdigit : ∀ c ∈ (toString n).toList, c.isDigit = true := fun c => isDigit_of_mem_toList h
  refine ⟨?_, fun c hc hmark => ?_, fun hnew => ?_⟩
  · rw [toList_toString h]
    exact Nat.toDigits_ne_nil
  · have hnone : marks.all (fun c => !c.isDigit) = true := by decide
    simpa [hdigit c hc] using List.all_eq_true.1 hnone c hmark
  · rw [hnew] at hdigit
    exact absurd (hdigit 'n' (by decide)) (by decide)

namespace ExprTree

variable {p : Program} {k : Nat} {t x y : ExprTree}

theorem lexemes_ne_nil (t : ExprTree) : t.lexemes p ≠ [] := by
  cases t with
  | bool b => cases b <;> exact List.cons_ne_nil _ _
  | field => exact List.append_ne_nil_of_right_ne_nil _ (List.cons_ne_nil _ _)
  | binary => exact List.append_ne_nil_of_right_ne_nil _ (List.cons_ne_nil _ _)
  | assign => exact List.append_ne_nil_of_right_ne_nil _ (List.cons_ne_nil _ _)
  | compound => exact List.append_ne_nil_of_right_ne_nil _ (List.cons_ne_nil _ _)
  | increment op =>
    rw [lexemes_increment]
    split
    · exact List.cons_ne_nil _ _
    · exact List.append_ne_nil_of_right_ne_nil _ (List.cons_ne_nil _ _)
  | callOn => exact List.append_ne_nil_of_right_ne_nil _ (List.cons_ne_nil _ _)
  | _ => exact List.cons_ne_nil _ _

theorem lexical_operand (h : Lexical (t.lexemes p)) (k : Nat) : Lexical (t.operand p k) := by
  by_cases hloose : t.precedence < k
  · rw [operand_of_lt hloose]
    refine .singleton fun u hu => ?_
    rw [List.mem_singleton.1 hu]
    exact ⟨textOf_ne_nil h t.lexemes_ne_nil, h.whole⟩
  · rwa [operand_of_le (Nat.not_lt.1 hloose)]

/-- Brackets around the texts of trees. -/
theorem valid_group {square : Bool} {ts : List ExprTree} (h : ∀ t ∈ ts, Lexical (t.lexemes p)) :
    (Lexeme.group square (ts.map (text p))).Valid := by
  intro u hu
  obtain ⟨t, ht, rfl⟩ := List.mem_map.1 hu
  exact ⟨textOf_ne_nil (h t ht) t.lexemes_ne_nil, (h t ht).whole⟩

theorem valid_between (op : BinaryOp) : (Lexeme.between op.symbol.toList).Valid := by
  cases op <;> decide

theorem valid_between_compound (op : BinaryOp) :
    (Lexeme.between (op.symbol.toList ++ ['='])).Valid := by
  cases op <;> decide

/-- Regular trees are written in lexemes. -/
theorem lexical (hp : p.NamesApart) (t : ExprTree) : ∀ {k}, t.Throughout (fun _ => Regular p) k →
    Lexical (t.lexemes p) := by
  induction t using induct with
  | step t ih =>
    intro k h
    have hpart : ∀ q ∈ t.parts, ∀ k', Lexical (q.2.operand p k') :=
      fun q hq k' => lexical_operand (ih q hq (h.part hq)) k'
    have hhere := h.here
    cases t with
    | int value => exact .singleton (valid_number hhere)
    | bool b => cases b <;> exact .singleton (by decide)
    | null => exact .singleton (by decide)
    | var v =>
      obtain ⟨name, hname, htext⟩ := hp.isName_varText hhere
      rw [lexemes, htext]
      exact .singleton hname.valid
    | field object v =>
      obtain ⟨name, hname, htext⟩ := hp.isName_varText hhere
      rw [lexemes_field, htext]
      exact .operator (hpart _ List.mem_cons_self _) (by decide) rfl rfl (.singleton hname.valid)
    | unary op operand =>
      refine .cons ?_ rfl (hpart _ List.mem_cons_self _)
      cases op <;> decide
    | binary op lhs rhs =>
      exact .operator (hpart _ List.mem_cons_self _) (valid_between op) rfl rfl
        (hpart _ (List.mem_cons_of_mem _ List.mem_cons_self) _)
    | assign target value =>
      exact .operator (hpart _ List.mem_cons_self _) (by decide) rfl rfl
        (hpart _ (List.mem_cons_of_mem _ List.mem_cons_self) _)
    | compound op target value =>
      exact .operator (hpart _ List.mem_cons_self _) (valid_between_compound op) rfl rfl
        (hpart _ (List.mem_cons_of_mem _ List.mem_cons_self) _)
    | increment op target =>
      have hsign : (Lexeme.mark op.sign).Valid := by cases op <;> decide
      have htarget := hpart _ List.mem_cons_self op.precedence
      rw [lexemes_increment]
      split
      · exact .cons hsign rfl (.cons hsign rfl htarget)
      · exact .operator htarget hsign rfl rfl (.singleton hsign)
    | call m args =>
      obtain ⟨name, hname, htext⟩ := hp.isName_methodText hhere
      have hargs : ∀ a ∈ args, Lexical (a.lexemes p) :=
        fun a ha => ih _ (List.mem_map_of_mem ha) (h.part (List.mem_map_of_mem ha))
      rw [lexemes_call, htext]
      exact .operator (.singleton hname.valid) (valid_group hargs) rfl rfl .nil
    | callOn receiver m args =>
      obtain ⟨name, hname, htext⟩ := hp.isName_methodText hhere
      have hmem : ∀ {a}, a ∈ args → (_, a) ∈ (callOn receiver m args).parts :=
        fun ha => List.mem_cons_of_mem _ (List.mem_map_of_mem ha)
      have hargs : ∀ a ∈ args, Lexical (a.lexemes p) :=
        fun a ha => ih _ (hmem ha) (h.part (hmem ha))
      rw [lexemes_callOn, htext]
      exact .operator (hpart _ List.mem_cons_self _) (by decide) rfl rfl
        (.operator (.singleton hname.valid) (valid_group hargs) rfl rfl .nil)
    | newObject className =>
      exact .cons (by decide) rfl
        (.operator (.singleton (IsName.valid hhere)) (by decide) rfl rfl .nil)
    | newArray element length =>
      have hlength : ∀ t ∈ [length], Lexical (t.lexemes p) := fun t ht =>
        List.mem_singleton.1 ht ▸ ih _ List.mem_cons_self (h.part List.mem_cons_self)
      exact .cons (by decide) rfl
        (.operator (Ty.lexical_lexemes hhere) (valid_group hlength) rfl rfl .nil)

end ExprTree

/-! ### How tightly lexemes bind -/

namespace BinaryOp

def all : List BinaryOp := [add, sub, mul, div, rem, lt, le, gt, ge, eq, ne, bitAnd, bitOr]

/-- The comparison that is written like the assignment that combines by an operator. -/
def orEqual : BinaryOp → Option BinaryOp
  | lt => some le
  | gt => some ge
  | _ => none

theorem symbol_append_eq {op c : BinaryOp} (h : op.orEqual = some c) :
    op.symbol.toList ++ ['='] = c.symbol.toList := by
  cases op <;> cases h <;> rfl

theorem precedence_of_orEqual {op c : BinaryOp} (h : op.orEqual = some c) :
    c.precedence = le.precedence := by
  cases op <;> cases h <;> rfl

theorem symbol_inj {op op' : BinaryOp} (h : op.symbol.toList = op'.symbol.toList) : op = op' := by
  revert h
  cases op <;> cases op' <;> decide

end BinaryOp

namespace Lexeme

def isBetween : Lexeme → Bool
  | between _ => true
  | _ => false

/-- How tightly an operator between operands binds, if it is read as a binary operator where that
    is possible and as an assignment where it is not. Other lexemes do not take anything apart. -/
def strength : Lexeme → Nat
  | between symbol =>
    ((BinaryOp.all.find? fun op => op.symbol.toList = symbol).map BinaryOp.precedence).getD
      Precedence.assignment
  | _ => Precedence.primary

theorem strength_between (op : BinaryOp) :
    (between op.symbol.toList).strength = op.precedence := by
  cases op <;> decide

theorem strength_compound {op : BinaryOp} (h : op.orEqual = none) :
    (between (op.symbol.toList ++ ['='])).strength = Precedence.assignment := by
  cases op <;> first | decide | cases h

theorem strength_of_isBetween {x : Lexeme} (h : x.isBetween = false) :
    x.strength = Precedence.primary := by
  cases x with
  | between => cases h
  | _ => rfl

theorem isBetween_of_lt_strength {x : Lexeme} (h : 12 < x.strength) : x.isBetween = false := by
  cases x with
  | between symbol =>
    rw [strength] at h
    cases hfind : BinaryOp.all.find? fun op => op.symbol.toList = symbol with
    | none =>
      rw [hfind] at h
      exact absurd h (by decide)
    | some op =>
      rw [hfind] at h
      exact absurd op.precedence_le_twelve (Nat.not_le.2 h)
  | _ => rfl

end Lexeme

theorem Ty.isBetween_of_mem {ty : Ty} {x : Lexeme} (hx : x ∈ ty.lexemes) : x.isBetween = false := by
  induction ty with
  | array element ih =>
    rcases List.mem_append.1 hx with hx | hx
    · exact ih hx
    · rw [List.mem_singleton.1 hx]
      rfl
  | _ =>
    rw [List.mem_singleton.1 hx]
    rfl

namespace ExprTree

variable {p : Program} {k : Nat} {t x y : ExprTree}

theorem le_strength_operand (ht : Precedence.assignment < t.precedence →
      ∀ x ∈ t.lexemes p, t.precedence ≤ x.strength) (hk : Precedence.assignment < k)
    (hk' : k ≤ Precedence.primary) : ∀ x ∈ t.operand p k, k ≤ x.strength := by
  intro x hx
  by_cases hloose : t.precedence < k
  · rw [operand_of_lt hloose, List.mem_singleton] at hx
    rw [hx]
    exact hk'
  · have hle : k ≤ t.precedence := Nat.not_lt.1 hloose
    rw [operand_of_le hle] at hx
    exact hle.trans (ht (hk.trans_le hle) x hx)

theorem precedence_le_primary (t : ExprTree) : t.precedence ≤ Precedence.primary := by
  cases t with
  | binary op => exact op.precedence_le_twelve.trans (by decide)
  | increment op => cases op <;> exact Nat.le_of_ble_eq_true rfl
  | _ => exact Nat.le_of_ble_eq_true rfl

/-- Outside parentheses, no operator binds less tightly than the outermost one. -/
theorem le_strength (t : ExprTree) : Precedence.assignment < t.precedence →
    ∀ x ∈ t.lexemes p, t.precedence ≤ x.strength := by
  induction t using induct with
  | step t ih =>
    intro ht x hx
    have hpart : ∀ {k q}, q ∈ t.parts → Precedence.assignment < k → k ≤ Precedence.primary →
        x ∈ q.2.operand p k → k ≤ x.strength :=
      fun hq hk hk' => le_strength_operand (ih _ hq) hk hk' x
    have hfree : ∀ {k q}, q ∈ t.parts → 12 < k → k ≤ Precedence.primary →
        x ∈ q.2.operand p k → x.isBetween = false := fun hq hk hk' hx =>
      Lexeme.isBetween_of_lt_strength (hk.trans_le (hpart hq (hk.trans' (by decide)) hk' hx))
    -- Apart from binary operators, nothing stands between operands.
    have hatom : x.isBetween = false → t.precedence ≤ x.strength := fun hx =>
      Lexeme.strength_of_isBetween hx ▸ t.precedence_le_primary
    cases t with
    | binary op lhs rhs =>
      have hlt : Precedence.assignment < op.precedence :=
        Nat.lt_of_lt_of_le (by decide) op.five_le_precedence
      have hle : op.precedence + 1 ≤ Precedence.primary :=
        (Nat.succ_le_succ op.precedence_le_twelve).trans (by decide)
      rw [lexemes_binary, List.mem_append, List.mem_cons] at hx
      rcases hx with hx | rfl | hx
      · exact hpart List.mem_cons_self hlt (Nat.le_of_succ_le hle) hx
      · exact (Lexeme.strength_between op).ge
      · exact Nat.le_of_succ_le (hpart (List.mem_cons_of_mem _ List.mem_cons_self)
          (Nat.lt_succ_of_lt hlt) hle hx)
    | assign target value => exact absurd ht (Nat.lt_irrefl _)
    | compound op target value => exact absurd ht (Nat.lt_irrefl _)
    | field object v =>
      rw [lexemes_field, List.mem_append] at hx
      rcases hx with hx | hx
      · exact hatom (hfree List.mem_cons_self (by decide) (by decide) hx)
      · rcases List.mem_pair.1 hx with rfl | rfl <;> exact hatom rfl
    | unary op operand =>
      rw [lexemes_unary, List.mem_cons] at hx
      rcases hx with rfl | hx
      · exact hatom rfl
      · exact hatom (hfree List.mem_cons_self (by decide) (by decide) hx)
    | increment op target =>
      have htarget : x ∈ target.operand p op.precedence → x.isBetween = false :=
        hfree List.mem_cons_self (by cases op <;> decide) (by cases op <;> decide)
      refine hatom ?_
      rw [lexemes_increment] at hx
      split at hx
      · rw [List.mem_cons, List.mem_cons] at hx
        rcases hx with rfl | rfl | hx
        · rfl
        · rfl
        · exact htarget hx
      · rcases List.mem_append.1 hx with hx | hx
        · exact htarget hx
        · rcases List.mem_pair.1 hx with rfl | rfl <;> rfl
    | callOn receiver m args =>
      rw [lexemes_callOn, List.mem_append] at hx
      rcases hx with hx | hx
      · exact hatom (hfree List.mem_cons_self (by decide) (by decide) hx)
      · simp only [List.mem_cons, List.not_mem_nil, or_false] at hx
        rcases hx with rfl | rfl | rfl <;> exact hatom rfl
    | newArray element length =>
      simp only [lexemes, List.mem_cons, List.mem_append, List.not_mem_nil, or_false] at hx
      rcases hx with rfl | hx | rfl
      · exact hatom rfl
      · exact hatom (Ty.isBetween_of_mem hx)
      · exact hatom rfl
    | bool b =>
      cases b <;> exact hatom (List.mem_singleton.1 hx ▸ rfl)
    | int | null | var => exact hatom (List.mem_singleton.1 hx ▸ rfl)
    | call m args => rcases List.mem_pair.1 hx with rfl | rfl <;> exact hatom rfl
    | newObject className =>
      simp only [lexemes, List.mem_cons, List.not_mem_nil, or_false] at hx
      rcases hx with rfl | rfl | rfl <;> exact hatom rfl

/-- Nothing stands between operands in what binds more tightly than binary operators. -/
theorem isBetween_of_mem (ht : 12 < t.precedence) {x : Lexeme} (hx : x ∈ t.lexemes p) :
    x.isBetween = false :=
  Lexeme.isBetween_of_lt_strength
    (ht.trans_le (t.le_strength (Nat.lt_trans (by decide) ht) x hx))

/-- What binds more tightly than operators in front does not begin with a mark. -/
theorem head_ne_mark (t : ExprTree) : Precedence.trailing ≤ t.precedence →
    ∀ c, (t.lexemes p).head? ≠ some (.mark c) := by
  induction t using induct with
  | step t ih =>
    intro ht c
    have hoperand : ∀ {q xs}, q ∈ t.parts →
        (q.2.operand p Precedence.trailing ++ xs).head? ≠ some (.mark c) := by
      intro q xs hq
      by_cases hloose : q.2.precedence < Precedence.trailing
      · rw [operand_of_lt hloose]
        exact fun h => by cases h
      · have hle := Nat.not_lt.1 hloose
        rw [operand_of_le hle, List.head?_append_of_ne_nil _ q.2.lexemes_ne_nil]
        exact ih q hq hle c
    cases t with
    | binary op =>
      exact absurd op.precedence_le_twelve (Nat.not_le.2 (Nat.lt_of_lt_of_le (by decide) ht))
    | assign | compound | unary => exact absurd ht (Nat.not_le_of_lt (Nat.le_of_ble_eq_true rfl))
    | field => exact hoperand List.mem_cons_self
    | callOn =>
      rw [lexemes_callOn]
      exact hoperand List.mem_cons_self
    | increment op target =>
      cases op with
      | preInc | preDec => exact absurd ht (Nat.not_le_of_lt (Nat.le_of_ble_eq_true rfl))
      | postInc | postDec => exact hoperand List.mem_cons_self
    | bool b => cases b <;> exact fun h => by cases h
    | _ => exact fun h => by cases h

end ExprTree

/-! ### Kinds of trees -/

/-- What a tree is, as far as its lexemes show at first sight. -/
inductive Kind where
  /-- A binary operation or an assignment. -/
  | infixed
  /-- An operator in front of its operand, or behind it. -/
  | signed (leads : Bool) (sign : Char)
  | number
  | truth (value : Bool)
  | nothing
  | name
  | field
  | call
  | callOn
  | object
  | array

namespace Kind

def ofWord (w : List Char) : Kind :=
  if w.head?.any Char.isDigit then number
  else if w = ['t', 'r', 'u', 'e'] then truth true
  else if w = ['f', 'a', 'l', 's', 'e'] then truth false
  else if w = ['n', 'u', 'l', 'l'] then nothing
  else name

/-- What the last lexemes show, the last one first. -/
def ofEnd : List Lexeme → Kind
  | [.word w] => ofWord w
  | .word _ :: _ => field
  | .mark c :: _ => signed false c
  | .group true _ :: _ => array
  | .group false _ :: .word _ :: .mark _ :: _ => callOn
  | .group false _ :: .word _ :: .make :: _ => object
  | _ => call

def ofLexemes (xs : List Lexeme) : Kind :=
  if xs.any Lexeme.isBetween then infixed
  else match xs.head? with
    | some (.mark c) => signed true c
    | _ => ofEnd xs.reverse

theorem ofWord_of_isName {s : String} (h : IsName s) : ofWord s.toList = name := by
  rw [ofWord, h.2.2.1, if_neg (by decide), if_neg (h.ne_of_mem (by decide)),
    if_neg (h.ne_of_mem (by decide)), if_neg (h.ne_of_mem (by decide))]

theorem ofWord_of_nonneg {n : Int} (h : 0 ≤ n) : ofWord (toString n).toList = number := by
  obtain ⟨c, cs, hcs⟩ := List.exists_cons_of_ne_nil (valid_number h).1
  have hdigit : c.isDigit = true := isDigit_of_mem_toList h (hcs ▸ List.mem_cons_self)
  rw [ofWord, hcs]
  exact if_pos hdigit

end Kind

namespace ExprTree

variable {p : Program} {k : Nat} {t x y : ExprTree}

def kind : ExprTree → Kind
  | int _ => .number
  | bool b => .truth b
  | null => .nothing
  | var _ => .name
  | field .. => .field
  | unary op _ => .signed true op.sign
  | binary .. | assign .. | compound .. => .infixed
  | increment op _ => .signed op.leads op.sign
  | call .. => .call
  | callOn .. => .callOn
  | newObject _ => .object
  | newArray .. => .array

theorem any_isBetween_of_lt (ht : 12 < t.precedence) :
    (t.lexemes p).any Lexeme.isBetween = false := by
  simpa using fun x hx => t.isBetween_of_mem ht hx

/-- What binds tightly shows in the end what it is. -/
theorem kind_of_trailing (t : ExprTree) (ht : Precedence.trailing ≤ t.precedence) :
    Kind.ofLexemes (t.lexemes p) = Kind.ofEnd (t.lexemes p).reverse := by
  rw [Kind.ofLexemes, any_isBetween_of_lt (Nat.lt_of_lt_of_le (by decide) ht), if_neg (by decide)]
  split
  · next c hc => exact absurd hc (t.head_ne_mark ht c)
  · rfl

theorem kind_of_leading {c : Char} {xs : List Lexeme} (ht : t.precedence = Precedence.leading)
    (h : t.lexemes p = .mark c :: xs) : Kind.ofLexemes (t.lexemes p) = .signed true c := by
  rw [Kind.ofLexemes, any_isBetween_of_lt (by rw [ht]; decide), if_neg (by decide), h]
  rfl

/-- The lexemes of a regular tree show what kind of tree it is. -/
theorem ofLexemes_lexemes (hp : p.NamesApart) (ht : t.Regular p) :
    Kind.ofLexemes (t.lexemes p) = t.kind := by
  have hinfixed : ∀ {xs ys s}, Kind.ofLexemes (xs ++ .between s :: ys) = .infixed :=
    if_pos (by simp [Lexeme.isBetween])
  have hprimary : Precedence.trailing ≤ Precedence.primary := by decide
  cases t with
  | binary | assign | compound => exact hinfixed
  | unary op operand => exact kind_of_leading rfl (lexemes_unary p op operand)
  | increment op target =>
    rw [kind]
    cases hleads : op.leads with
    | true =>
      exact kind_of_leading (if_pos hleads) ((lexemes_increment p op target).trans (if_pos hleads))
    | false =>
      have hprec : (increment op target).precedence = Precedence.trailing :=
        if_neg (by simp [hleads])
      rw [kind_of_trailing _ hprec.ge, lexemes_increment, hleads]
      simp [Kind.ofEnd]
  | int value => exact (kind_of_trailing (int value) hprimary).trans (Kind.ofWord_of_nonneg ht)
  | bool b => cases b <;> exact kind_of_trailing _ hprimary
  | null => exact kind_of_trailing _ hprimary
  | var v =>
    obtain ⟨name, hname, htext⟩ := hp.isName_varText ht
    refine (kind_of_trailing (var v) hprimary).trans ?_
    rw [lexemes, htext]
    exact Kind.ofWord_of_isName hname
  | field object v =>
    refine (kind_of_trailing (field object v) hprimary).trans ?_
    rw [lexemes_field, List.reverse_append]
    rfl
  | callOn receiver m args =>
    refine (kind_of_trailing (callOn receiver m args) hprimary).trans ?_
    rw [lexemes_callOn, List.reverse_append]
    rfl
  | call | newObject => exact kind_of_trailing _ hprimary
  | newArray element length =>
    refine (kind_of_trailing (newArray element length) hprimary).trans ?_
    rw [lexemes, List.reverse_cons, List.reverse_append]
    rfl

end ExprTree

end Dataflow
