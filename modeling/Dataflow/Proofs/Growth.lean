import Dataflow.Proofs.Frames
import Dataflow.Proofs.Preservation
import Dataflow.Proofs.Refuelling

/-!
# How much more fuel an inlined program takes

A value that is put where a variable was read is evaluated there again. So a program takes more fuel
after inlining, although it does the same. How much more is a matter of its statements: if none of
them has more than `k` times as many expressions to evaluate as before, then `k` times the fuel is
enough.

Values are put into values that are put into others, and statements grow with each of them. But one
rewrite does no worse than to make the largest statement twice as large.

* `Runs.scales`: two runs that go the same way, and the fuel that they take;
* `Program.Edited.within`: the size of statements after a rewrite;
* `Inlining.optimize_evaluate_scaled`: the whole run.
-/

namespace Dataflow

/-! ### What is evaluated -/

theorem Expr.evaluated_sublist {x : Expr} {ins : List ExprId} (h : x.evaluated = some ins) :
    ins.Sublist x.operands := by
  cases x with
  | call method receiver args =>
    cases receiver with
    | none =>
      cases h
      exact .refl _
    | some receiver => cases h
  | assign | compound =>
    cases h
    exact .cons _ (.refl _)
  | increment =>
    cases h
    exact List.nil_sublist _
  | int | bool | null | var | unary | binary =>
    cases h
    exact .refl _
  | field | newObject | newArray => cases h

/-- Everything that is evaluated is inside, and it is evaluated once. -/
theorem Evaluates.sublist {p : Program} {es l l' : List ExprId} (h : Evaluates p es l')
    (hl : Spans p es l) : l'.Sublist l := by
  induction h generalizing l with
  | nil => exact List.nil_sublist l
  | cons hx hins _ _ ih₁ ih₂ =>
    cases hl with
    | cons hx' hinner hrest =>
      cases hx.symm.trans hx'
      obtain ⟨l₁, hl₁, hsub⟩ := hinner.exists_of_sublist (Expr.evaluated_sublist hins)
      exact (((ih₁ hl₁).trans hsub).append (ih₂ hrest)).cons_cons _

/-- The statement is one that returns from its method. -/
def Stmt.returns : Stmt → Bool
  | ret _ => true
  | _ => false

theorem Stmt.returns_withExprs (st : Stmt) (es : List ExprId) :
    (st.withExprs es).returns = st.returns := by
  fun_cases withExprs st es <;> rfl

namespace Program

/-- The statements in the bodies of `p` have at most `k` times as many expressions to evaluate
    in `q`. -/
def GrowsBy (p q : Program) (k : Nat) : Prop :=
  ∀ b ∈ p.bodies.map Prod.snd, ∀ s st st' l l', p.Inside (.stmt b) (.stmt s) →
    p.stmts.get? s = some st → q.stmts.get? s = some st' → Evaluates p st.exprs l →
    Evaluates q st'.exprs l' → l'.length ≤ k * l.length

/-- No statement in a body has more than `w` expressions inside, those of other statements apart. -/
def Within (p : Program) (w : Nat) : Prop :=
  ∀ b ∈ p.bodies.map Prod.snd, ∀ s st l, p.Inside (.stmt b) (.stmt s) → p.stmts.get? s = some st →
    Spans p st.exprs l → l.length ≤ w

end Program

/-! ### Two runs that go the same way -/

section Scaling

variable {p q : Program} {ls : List StmtId} {k : Nat}

/-- Evaluating some expressions in `q` takes at most `k` times what others take in `p`. -/
def Program.ExprsGrowBy (p q : Program) (k : Nat) (es es' : List ExprId) : Prop :=
  ∀ l l', Evaluates p es l → Evaluates q es' l' → l'.length ≤ k * l.length

/-- Both programs have the same statements, up to their expressions, and no statement has more than
    `k` times as many expressions to evaluate in `q`. -/
structure Program.Paced (p q : Program) (ls : List StmtId) (k : Nat) : Prop where
  pos : 0 < k
  stmt : ∀ s ∈ ls, ∀ st, p.stmts.get? s = some st → ∃ es, q.stmts.get? s = some (st.withExprs es) ∧
    es.length = st.exprs.length ∧ p.ExprsGrowBy q k st.exprs es
  children : ∀ s ∈ ls, ∀ st, p.stmts.get? s = some st → ∀ t ∈ st.children, t ∈ ls

/-- The same task in both programs. -/
inductive Task.Matches (p q : Program) (ls : List StmtId) (k : Nat) : Task → Task → Prop
  | stmt {s : StmtId} : s ∈ ls → Matches p q ls k (.stmt s) (.stmt s)
  | seq {ss : List StmtId} : (∀ s ∈ ss, s ∈ ls) → Matches p q ls k (.seq ss) (.seq ss)
  | loop {s b : StmtId} {e e' : ExprId} : b ∈ ls → p.ExprsGrowBy q k [e] [e'] →
    Matches p q ls k (.loop s e b) (.loop s e' b)

theorem Program.ExprsGrowBy.exists_costs {e e' : ExprId} {n n' m m' : Memory} {a a' : Int64}
    {events events' : List Event} (h : p.ExprsGrowBy q k [e] [e'])
    (he : Computes p [e] n events [a] n') (he' : Computes q [e'] m events' [a'] m') :
    ∃ cost cost', p.ExprCosts e n a n' cost ∧ q.ExprCosts e' m a' m' cost' ∧ cost' ≤ k * cost := by
  obtain ⟨l, hl, hcost⟩ := he.exists_cost
  obtain ⟨l', hl', hcost'⟩ := he'.exists_cost
  exact ⟨_, _, hcost, hcost', h l l' hl hl'⟩

/-- Two tasks end the same way and the second takes at most `k` times the fuel. -/
def Task.Scales (p q : Program) (k : Nat) (task task' : Task) (n : Memory) (c : Completion)
    (n' : Memory) (m : Memory) (c' : Completion) (m' : Memory) : Prop :=
  (c = .normal ↔ c' = .normal) ∧ ∃ cost cost', task.Costs p n c n' cost ∧
    task'.Costs q m c' m' cost' ∧ cost' ≤ k * cost

/-- Two evaluations that are followed by tests: the first tests that are made are these. -/
theorem Computes.tested_inj {es es' : List ExprId} {n n' m m' : Memory} {values values' : List Int64}
    {events later events' later' : List Event} {s s' : StmtId} {e e' : ExprId} {holds holds' : Bool}
    {went went' : List Bool} (he : Computes p es n events values n')
    (he' : Computes q es' m events' values' m')
    (h : tests (events ++ tested s e holds :: later) ++ went =
      tests (events' ++ tested s' e' holds' :: later') ++ went') :
    holds = holds' ∧ tests later ++ went = tests later' ++ went' := by
  simp only [tests_append, he.tests_eq_nil, he'.tests_eq_nil, tests_tested] at h
  exact List.cons.inj h

/-- A statement without others inside makes no tests. It takes one unit of fuel, and one more for each
    expression that it evaluates. -/
theorem Runs.exists_cost_of_leaf {s : StmtId} {st : Stmt} {n n' : Memory} {events : List Event}
    {c : Completion} (h : Runs p (.stmt s) n events c n') (hs : p.stmts.get? s = some st)
    (hleaf : st.children = []) :
    tests events = [] ∧ (c = .normal ↔ st.returns = false) ∧
      ∃ l, Evaluates p st.exprs l ∧ (Task.stmt s).Costs p n c n' (l.length + 1) := by
  cases h with
  | block hs' h =>
    cases hs.symm.trans hs'
    cases hleaf
    cases h
    exact ⟨rfl, by simp [Stmt.returns], [], .nil, .block hs .nil⟩
  | declare hs' =>
    cases hs.symm.trans hs'
    exact ⟨rfl, by simp [Stmt.returns], [], .nil, .declare hs⟩
  | init hs' he =>
    cases hs.symm.trans hs'
    obtain ⟨l, hl, hcost⟩ := he.exists_cost
    rw [tests_append, he.tests_eq_nil]
    exact ⟨rfl, by simp [Stmt.returns], l, hl, .init hs hcost⟩
  | expr hs' he =>
    cases hs.symm.trans hs'
    obtain ⟨l, hl, hcost⟩ := he.exists_cost
    exact ⟨he.tests_eq_nil, by simp [Stmt.returns], l, hl, .expr hs hcost⟩
  | @ret _ value _ _ events _ hs' he =>
    cases hs.symm.trans hs'
    rw [tests_append, he.tests_eq_nil]
    refine ⟨rfl, by simp [Stmt.returns], ?_⟩
    cases value with
    | none =>
      cases he
      exact ⟨[], .nil, .ret_none hs⟩
    | some e =>
      obtain ⟨a, rfl⟩ := he.exists_value
      obtain ⟨l, hl, hcost⟩ := he.exists_cost
      exact ⟨l, hl, .ret hs hcost⟩
  | thenBranch hs' | elseBranch hs' | loop hs' =>
    cases hs.symm.trans hs'
    cases hleaf

/-- Two runs of a statement without others inside. -/
theorem Program.Paced.scales_of_leaf (hpq : p.Paced q ls k) {s : StmtId} {st : Stmt} (hmem : s ∈ ls)
    (hs : p.stmts.get? s = some st) (hleaf : st.children = []) {n n' m m' : Memory}
    {events events' : List Event} {c c' : Completion} {went went' : List Bool}
    (h : Runs p (.stmt s) n events c n') (h' : Runs q (.stmt s) m events' c' m')
    (htests : tests events ++ went = tests events' ++ went') :
    went = went' ∧ Task.Scales p q k (.stmt s) (.stmt s) n c n' m c' m' := by
  obtain ⟨es, hs', hlen, hgrows⟩ := hpq.stmt s hmem st hs
  obtain ⟨hnone, hends, l, hl, hcost⟩ := h.exists_cost_of_leaf hs hleaf
  obtain ⟨hnone', hends', l', hl', hcost'⟩ :=
    h'.exists_cost_of_leaf hs' (Stmt.children_withExprs.trans hleaf)
  rw [Stmt.returns_withExprs] at hends'
  rw [Stmt.exprs_withExprs hlen] at hl'
  rw [hnone, hnone'] at htests
  refine ⟨htests, hends.trans hends'.symm, _, _, hcost, hcost', ?_⟩
  have := hpq.pos
  have := hgrows l l' hl hl'
  rw [Nat.mul_succ]
  omega

/-- Two runs of the same task in which all tests go the same way: they end the same way, after the
    same tests, and the second takes at most `k` times the fuel. -/
theorem Runs.scales (hpq : p.Paced q ls k) {task task' : Task} {n n' m m' : Memory}
    {events events' : List Event} {c c' : Completion} {went went' : List Bool}
    (h : Runs p task n events c n') (h' : Runs q task' m events' c' m')
    (hmatch : Task.Matches p q ls k task task')
    (htests : tests events ++ went = tests events' ++ went') :
    went = went' ∧ Task.Scales p q k task task' n c n' m c' m' := by
  have hpos := hpq.pos
  -- Each test that the first run makes is the next one of the second, which so takes the same rule.
  induction h generalizing task' m events' c' m' went went' with
  | declare hs =>
    cases hmatch with | stmt hmem => exact hpq.scales_of_leaf hmem hs rfl (.declare hs) h' htests
  | init hs he =>
    cases hmatch with | stmt hmem => exact hpq.scales_of_leaf hmem hs rfl (.init hs he) h' htests
  | expr hs he =>
    cases hmatch with | stmt hmem => exact hpq.scales_of_leaf hmem hs rfl (.expr hs he) h' htests
  | ret hs he =>
    cases hmatch with | stmt hmem => exact hpq.scales_of_leaf hmem hs rfl (.ret hs he) h' htests
  | block hs _ ih =>
    cases hmatch with | stmt hmem =>
    obtain ⟨_, hs', _⟩ := hpq.stmt _ hmem _ hs
    cases h'
    case block hs'' h' =>
      cases hs'.symm.trans hs''
      obtain ⟨hwent, hc, cost, cost', hcost, hcost', hle⟩ :=
        ih h' (.seq (hpq.children _ hmem _ hs)) htests
      exact ⟨hwent, hc, _, _, .block hs hcost, .block hs' hcost', by rw [Nat.mul_succ]; omega⟩
    all_goals cases hs'.symm.trans ‹q.stmts.get? _ = some _›
  | thenBranch hs he hne _ ih =>
    cases hmatch with | stmt hmem =>
    obtain ⟨_, hs', hlen, hgrows⟩ := hpq.stmt _ hmem _ hs
    obtain ⟨e', rfl⟩ := List.length_eq_one_iff.1 hlen
    cases h'
    case thenBranch hne' hs'' he' h' =>
      cases hs'.symm.trans hs''
      obtain ⟨cost, cost', hcost, hcost', hle⟩ := hgrows.exists_costs he he'
      obtain ⟨hwent, hc, later, later', hlater, hlater', hle'⟩ :=
        ih h' (.stmt (hpq.children _ hmem _ hs _ List.mem_cons_self)) (he.tested_inj he' htests).2
      exact ⟨hwent, hc, _, _, .thenBranch hs hcost hne hlater, .thenBranch hs' hcost' hne' hlater',
        by rw [Nat.mul_succ, Nat.mul_add]; omega⟩
    case elseBranch hs'' he' h' => cases (he.tested_inj he' htests).1
    all_goals cases hs'.symm.trans ‹q.stmts.get? _ = some _›
  | elseBranch hs he _ ih =>
    cases hmatch with | stmt hmem =>
    obtain ⟨_, hs', hlen, hgrows⟩ := hpq.stmt _ hmem _ hs
    obtain ⟨e', rfl⟩ := List.length_eq_one_iff.1 hlen
    cases h'
    case elseBranch hs'' he' h' =>
      cases hs'.symm.trans hs''
      obtain ⟨cost, cost', hcost, hcost', hle⟩ := hgrows.exists_costs he he'
      obtain ⟨hwent, hc, later, later', hlater, hlater', hle'⟩ :=
        ih h' (.seq fun t ht => hpq.children _ hmem _ hs t (List.mem_cons_of_mem _ ht))
          (he.tested_inj he' htests).2
      exact ⟨hwent, hc, _, _, .elseBranch hs hcost hlater, .elseBranch hs' hcost' hlater',
        by rw [Nat.mul_succ, Nat.mul_add]; omega⟩
    case thenBranch hne' hs'' he' h' => cases (he.tested_inj he' htests).1
    all_goals cases hs'.symm.trans ‹q.stmts.get? _ = some _›
  | loop hs _ ih =>
    cases hmatch with | stmt hmem =>
    obtain ⟨_, hs', hlen, hgrows⟩ := hpq.stmt _ hmem _ hs
    obtain ⟨e', rfl⟩ := List.length_eq_one_iff.1 hlen
    cases h'
    case loop hs'' h' =>
      cases hs'.symm.trans hs''
      obtain ⟨hwent, hc, cost, cost', hcost, hcost', hle⟩ :=
        ih h' (.loop (hpq.children _ hmem _ hs _ List.mem_cons_self) hgrows) htests
      exact ⟨hwent, hc, _, _, .loop hs hcost, .loop hs' hcost', by rw [Nat.mul_succ]; omega⟩
    all_goals cases hs'.symm.trans ‹q.stmts.get? _ = some _›
  | nil =>
    cases hmatch with | seq =>
    cases h' with | nil => exact ⟨htests, Iff.rfl, _, _, .nil, .nil, Nat.zero_le _⟩
  | next _ _ ih₁ ih₂ =>
    cases hmatch with | seq hmem =>
    rw [List.forall_mem_cons] at hmem
    rw [tests_append, List.append_assoc] at htests
    cases h' with
    | next h₁ h₂ =>
      rw [tests_append, List.append_assoc] at htests
      obtain ⟨htests, _, cost, cost', hcost, hcost', hle⟩ := ih₁ h₁ (.stmt hmem.1) htests
      obtain ⟨hwent, hc, later, later', hlater, hlater', hle'⟩ := ih₂ h₂ (.seq hmem.2) htests
      exact ⟨hwent, hc, _, _, hcost.next hlater, hcost'.next hlater', by rw [Nat.mul_add]; omega⟩
    | stop h₁ =>
      obtain ⟨_, hc, _⟩ := ih₁ h₁ (.stmt hmem.1) htests
      cases hc.1 rfl
  | stop _ ih =>
    cases hmatch with | seq hmem =>
    rw [List.forall_mem_cons] at hmem
    cases h' with
    | next h₁ h₂ =>
      rw [tests_append, List.append_assoc] at htests
      obtain ⟨_, hc, _⟩ := ih h₁ (.stmt hmem.1) htests
      cases hc.2 rfl
    | stop h₁ =>
      obtain ⟨hwent, hc, cost, cost', hcost, hcost', hle⟩ := ih h₁ (.stmt hmem.1) htests
      exact ⟨hwent, hc, _, _, hcost.stop, hcost'.stop, hle⟩
  | exit he =>
    cases hmatch with | loop hmem hgrows =>
    cases h' with
    | exit he' =>
      obtain ⟨cost, cost', hcost, hcost', hle⟩ := hgrows.exists_costs he he'
      exact ⟨(he.tested_inj he' htests).2, Iff.rfl, _, _, .exit hcost, .exit hcost', hle⟩
    | again he' | leave he' => cases (he.tested_inj he' htests).1
  | again he hne _ _ ih₁ ih₂ =>
    cases hmatch with | loop hmem hgrows =>
    cases h' with
    | exit he' => cases (he.tested_inj he' htests).1
    | again he' hne' h₁ h₂ =>
      obtain ⟨cost, cost', hcost, hcost', hle⟩ := hgrows.exists_costs he he'
      have htests := (he.tested_inj he' htests).2
      rw [tests_append, List.append_assoc, tests_append, List.append_assoc] at htests
      obtain ⟨htests, _, inner, inner', hinner, hinner', hle₁⟩ := ih₁ h₁ (.stmt hmem) htests
      obtain ⟨hwent, hc, later, later', hlater, hlater', hle₂⟩ :=
        ih₂ h₂ (.loop hmem hgrows) htests
      exact ⟨hwent, hc, _, _, .again hcost hne hinner hlater, .again hcost' hne' hinner' hlater',
        by rw [Nat.mul_add, Nat.mul_add]; omega⟩
    | leave he' _ h₁ =>
      have htests := (he.tested_inj he' htests).2
      rw [tests_append, List.append_assoc] at htests
      obtain ⟨_, hc, _⟩ := ih₁ h₁ (.stmt hmem) htests
      cases hc.1 rfl
  | leave he hne _ ih =>
    cases hmatch with | loop hmem hgrows =>
    cases h' with
    | exit he' => cases (he.tested_inj he' htests).1
    | again he' _ h₁ =>
      have htests := (he.tested_inj he' htests).2
      rw [tests_append, List.append_assoc] at htests
      obtain ⟨_, hc, _⟩ := ih h₁ (.stmt hmem) htests
      cases hc.2 rfl
    | leave he' hne' h₁ =>
      obtain ⟨cost, cost', hcost, hcost', hle⟩ := hgrows.exists_costs he he'
      obtain ⟨hwent, hc, inner, inner', hinner, hinner', hle₁⟩ :=
        ih h₁ (.stmt hmem) (he.tested_inj he' htests).2
      exact ⟨hwent, hc, _, _, .leave hcost hne hinner, .leave hcost' hne' hinner',
        by rw [Nat.mul_add]; omega⟩

end Scaling

/-! ### Sizes of statements -/

/-- A list in which something new stands in one place. -/
theorem length_flatMap_inPlaceOf_le {α : Type} [DecidableEq α] {x : α} {ys l : List α}
    (hl : l.Nodup) : (l.flatMap (inPlaceOf x ys)).length ≤ l.length + ys.length := by
  induction l with
  | nil => exact Nat.zero_le _
  | cons z l ih =>
    obtain ⟨hz, hl⟩ := List.nodup_cons.1 hl
    rw [List.flatMap_cons, List.length_append, List.length_cons]
    by_cases hzx : z = x
    · rw [hzx, inPlaceOf_self, flatMap_inPlaceOf_of_not_mem (hzx ▸ hz)]
      omega
    · rw [inPlaceOf_of_ne ys hzx, List.length_singleton]
      have := ih hl
      omega

namespace Program

variable {p q : Program} {ls : List StmtId} {le la lc : List ExprId} {r c a : ExprId} {w w' : Nat}

/-- The statements inside the bodies are those that are listed. -/
theorem Lists.stmt_mem_iff (h : p.Lists ls le) {s : StmtId} :
    s ∈ ls ↔ ∃ b ∈ p.bodies.map Prod.snd, p.Inside (.stmt b) (.stmt s) := by
  refine ⟨h.spans.exists_inside, ?_⟩
  rintro ⟨b, hb, hin⟩
  exact hin.listed h.spans (h.spans.mem_of_mem_roots hb)

theorem Lists.within_iff (h : p.Lists ls le) : p.Within w ↔
    ∀ s ∈ ls, ∀ st l, p.stmts.get? s = some st → Spans p st.exprs l → l.length ≤ w := by
  constructor
  · intro hw s hs st l
    obtain ⟨b, hb, hin⟩ := h.stmt_mem_iff.1 hs
    exact hw b hb s st l hin
  · intro hw b hb s st l hin
    exact hw s (h.stmt_mem_iff.2 ⟨b, hb, hin⟩) st l

theorem Within.mono (h : p.Within w) (hle : w ≤ w') : p.Within w' := fun b hb s st l hin hs hl =>
  Nat.le_trans (h b hb s st l hin hs hl) hle

/-- In a tree program, no statement has more expressions than there are. -/
theorem Lists.within_size (h : p.Lists ls le) : p.Within p.exprs.size := by
  rw [h.within_iff]
  intro s hs st l hst hl
  obtain ⟨st', _, own, _, hst', how, _, _, hsub⟩ := h.spans.exists_sublist hs
  cases hst.symm.trans hst'
  rw [how.unique hl]
  exact how.length_le (h.exprs_nodup.sublist ((List.sublist_append_left _ _).trans hsub))

/-- An expression is no larger than the statement it is in. -/
theorem Lists.length_le_of_within (h : p.Lists ls le) (hw : p.Within w) (ha : Spans p [a] la)
    (hmem : a ∈ le) : la.length ≤ w := by
  obtain ⟨s, hs, st, own, hst, how, hown, _⟩ := h.spans.exists_own hmem
  obtain ⟨x, inner, hx, hinner, hsub⟩ := how.exists_sublist hown
  have hla : la = a :: (inner ++ []) := (Spans.cons hx hinner .nil).unique ha
  rw [hla, List.append_nil]
  exact Nat.le_trans hsub.length_le (h.within_iff.1 hw s hs st own hst how)

/-- A rewrite makes no statement larger than twice the size of the largest: it replaces one read by a
    copy of what is in one of them. -/
theorem Edited.within (h : p.Edited q r c a ls le la lc) (hl : p.Lists ls le) (ha : Spans p [a] la)
    (hmem : a ∈ le) (hw : p.Within w) : q.Within (2 * w) := by
  rw [(h.lists hl).within_iff]
  intro s hs st' l' hst' hl'
  obtain ⟨st, _, own, _, hst, how, _, _, hsub⟩ := hl.spans.exists_sublist hs
  have hown := (List.sublist_append_left _ _).trans hsub
  rw [h.stmt s hs, hst] at hst'
  cases hst'
  rw [Stmt.exprs_redirect] at hl'
  rw [(h.spans how hown.subset).unique hl']
  calc (own.flatMap (inPlaceOf r lc)).length
      ≤ own.length + lc.length := length_flatMap_inPlaceOf_le (hl.exprs_nodup.sublist hown)
    _ ≤ w + w := Nat.add_le_add (hl.within_iff.1 hw s hs st own hst how)
        (h.copies.length_eq ▸ hl.length_le_of_within hw ha hmem)
    _ = 2 * w := (Nat.two_mul w).symm

end Program

/-! ### The whole run -/

namespace Inlining

variable {p : Program} {ls : List StmtId} {w : Nat}

section Sweeps

variable {g₀ : Graph} {body : StmtId} {s s' : Sweep Known}

/-- A step keeps the statements, and it doubles their size at most, for one unit of fuel. -/
theorem Progresses.within (h : Progresses g₀ body s s') {le : List ExprId}
    (hl : s.program.Lists ls le) (hw : s.program.Within w) :
    s.fuel.consumed ≤ s'.fuel.consumed ∧ (∃ le', s'.program.Lists ls le') ∧
      s'.program.Within (2 ^ (s'.fuel.consumed - s.fuel.consumed) * w) := by
  have hcounted := h.counted
  cases h.moves with
  | pass =>
    have hle := Nat.le_of_add_le_add_right hcounted
    exact ⟨hle, ⟨le, hl⟩, hw.mono (Nat.le_mul_of_pos_left w (Nat.two_pow_pos _))⟩
  | replace fuel hprop hin =>
    obtain ⟨rfl, rfl⟩ := hl.spans.unique hprop.lists.spans
    have hlt : s.fuel.consumed + 1 ≤ fuel.consumed := by
      change s.fuel.consumed + (s.rewrites + 1) ≤ fuel.consumed + s.rewrites at hcounted
      omega
    have hmem := hprop.sublist.subset (hprop.spans.mem_of_mem_roots (List.mem_singleton_self _))
    refine ⟨Nat.le_of_succ_le hlt, ⟨_, hin.edited.lists hprop.lists⟩, ?_⟩
    refine (hin.edited.within hprop.lists hprop.spans hmem hw).mono (Nat.mul_le_mul_right w ?_)
    exact Nat.pow_le_pow_right Nat.two_pos (Nat.le_sub_of_add_le' hlt)

/-- Inlining in bodies changes slots only, and adds what it puts there. -/
theorem inlines_of_optimizeMethods {ms : List MethodId} {options : Options} {fuel : Fuel}
    {changed : Bool} {o : Optimization} (hp : p.IsTree)
    (h : optimizeMethods .declared options ms p fuel changed = .ok o) : p.Inlines o.program :=
  keeps_of_optimizeMethods (fun hstep _ _ hkept => hstep.inlines hp.inRange hkept) hp (.refl p) h

/-- Inlining in bodies keeps the statements, and it doubles their size at most for each unit of
    fuel. -/
theorem within_of_optimizeMethods {le : List ExprId} {ms : List MethodId} {options : Options}
    {fuel : Fuel} {changed : Bool} {o : Optimization} (hp : p.IsTree) (hl : p.Lists ls le)
    (hw : p.Within w) (h : optimizeMethods .declared options ms p fuel changed = .ok o) :
    (∃ le', o.program.Lists ls le') ∧
      o.program.Within (2 ^ (o.fuel.consumed - fuel.consumed) * w) := by
  refine (keeps_fuel_of_optimizeMethods (P := fun q f => fuel.consumed ≤ f.consumed ∧
    (∃ le', q.Lists ls le') ∧ q.Within (2 ^ (f.consumed - fuel.consumed) * w))
    (fun {_ _ s s'} hstep _ _ hkept => ?_) hp ⟨Nat.le_refl _, ⟨le, hl⟩, ?_⟩ h).2
  · obtain ⟨hle, ⟨le', hl'⟩, hw'⟩ := hkept
    obtain ⟨hle', hlists, hwithin⟩ := hstep.within hl' hw'
    refine ⟨Nat.le_trans hle hle', hlists, hwithin.mono (Nat.le_of_eq ?_)⟩
    rw [← Nat.mul_assoc, ← Nat.pow_add, Nat.sub_add_sub_cancel hle' hle]
  · rwa [Nat.sub_self, Nat.pow_zero, Nat.one_mul]

end Sweeps

end Inlining

section Outcomes

variable {p q : Program} {ls : List StmtId} {le le' : List ExprId} {new : ExprId → Prop} {k w : Nat}

theorem Evaluates.length_roots_le {es l : List ExprId} (h : Evaluates p es l) :
    es.length ≤ l.length := by
  induction h with
  | nil => exact Nat.le_refl _
  | cons _ _ _ _ _ ih =>
    rw [List.length_cons, List.length_cons, List.length_append]
    omega

/-- A program whose statements have at most `w` expressions has grown by that factor at most. -/
theorem Program.Framed.growsBy (h : p.Framed q new) (hl : p.Lists ls le) (hl' : q.Lists ls le')
    (hw : q.Within w) : p.GrowsBy q w := by
  intro b hb s st st' l l' hin hst hst' he he'
  have hs := hl.stmt_mem_iff.2 ⟨b, hb, hin⟩
  obtain ⟨es, hes, hslots⟩ := h.stmt s st hst
  cases hst'.symm.trans hes
  rw [Stmt.exprs_withExprs hslots.length_eq.symm] at he'
  cases es with
  | nil =>
    cases he'
    exact Nat.zero_le _
  | cons e es =>
    have hpos : 0 < l.length :=
      Nat.lt_of_lt_of_le (hslots.length_eq ▸ Nat.succ_pos es.length) he.length_roots_le
    obtain ⟨_, _, own, _, hst'', how, _⟩ := hl'.spans.exists_sublist hs
    have hown := hl'.within_iff.1 hw s hs _ own hst'' how
    cases hst'.symm.trans hst''
    rw [Stmt.exprs_withExprs hslots.length_eq.symm] at how
    exact Nat.le_trans (Nat.le_trans (he'.sublist how).length_le hown)
      (Nat.le_mul_of_pos_right w hpos)

theorem Program.Framed.paced (h : p.Framed q new) (hl : p.Lists ls le) (hk : 0 < k)
    (hgrows : p.GrowsBy q k) : p.Paced q ls k where
  pos := hk
  stmt s hs st hst := by
    obtain ⟨b, hb, hin⟩ := hl.stmt_mem_iff.1 hs
    obtain ⟨es, hes, hslots⟩ := h.stmt s st hst
    have hlen := hslots.length_eq.symm
    refine ⟨es, hes, hlen, fun l l' he he' => hgrows b hb s st _ l l' hin hst hes he ?_⟩
    rwa [Stmt.exprs_withExprs hlen]
  children s hs st hst t ht := hl.spans.mem_of_mem_children hs hst ht

/-- Where the runs are the same and no statement has grown by more than a factor, that many times the
    fuel is enough. -/
theorem SameRuns.evaluate_scaled (h : SameRuns p q) (hpq : p.Paced q ls k)
    (hroots : ∀ b ∈ p.bodies.map Prod.snd, b ∈ ls) {m : MethodId} {args : List Int64} {fuel : Nat}
    {o : Outcome} (ho : p.evaluate m args fuel = .ok (some o)) :
    q.evaluate m args (k * fuel) = .ok (some o) := by
  obtain ⟨decl, body, d, m', hdecl, hbody, hrun, rfl⟩ := Program.evaluate_eq_some_iff.1 ho
  have hb := Program.body_mem hdecl hbody
  obtain ⟨events, hevents⟩ := exists_runs hrun
  obtain ⟨events', hevents', htests⟩ := (h.runs body hb _ _ _ _).1 ⟨events, hevents, rfl⟩
  obtain ⟨_, _, cost, cost', hcost, hcost', hle⟩ := hevents.scales hpq hevents'
    (.stmt (hroots body hb)) (congrArg (· ++ []) htests.symm)
  have hfuel : cost ≤ fuel := hcost.le_of_gives hrun
  have hfuel' : cost' ≤ k * fuel := Nat.le_trans hle (Nat.mul_le_mul_left k hfuel)
  exact Program.evaluate_eq_some_iff.2 ⟨decl, body, d, _, h.methods ▸ hdecl, hbody,
    hcost' (k * fuel) (k * fuel + 1) cost' hfuel' (by omega) (Nat.le_refl _), rfl⟩

end Outcomes

/-- A tree program that assigns to variables only, before and after inlining. If no statement has more
    than `k` times as many expressions to evaluate afterwards, each method gives the same outcome with
    `k` times the fuel. One factor that will do is the size of the largest statement, doubled once for
    each unit of fuel that inlining took. -/
theorem Inlining.optimize_evaluate_scaled {p : Program} (hp : p.IsTree)
    (hvars : ∀ method body, (method, body) ∈ p.bodies → p.AssignsVariables body)
    {options : Options} {fuel : Fuel} {o : Optimization}
    (ho : optimize .declared options fuel p = .ok o) :
    (∀ k, 0 < k → p.GrowsBy o.program k → ∀ m args f outcome,
      p.evaluate m args f = .ok (some outcome) →
      o.program.evaluate m args (k * f) = .ok (some outcome)) ∧
    ∀ w, p.Within w → p.GrowsBy o.program (2 ^ (o.fuel.consumed - fuel.consumed) * w) := by
  obtain ⟨ls, le, hl⟩ := hp.isForest.exists_lists
  have hinlines := inlines_of_optimizeMethods hp ho
  have hall : p.AllAssignVariables :=
    List.forall_mem_map.2 fun ⟨method, body⟩ hbody => hvars method body hbody
  constructor
  · intro k hk hgrows m args f outcome
    exact (sameRuns_of_optimizeMethods hp hall ho).evaluate_scaled
      (hinlines.toFramed.paced hl hk hgrows) fun b hb => hl.spans.mem_of_mem_roots hb
  · intro w hw
    obtain ⟨⟨le', hl'⟩, hw'⟩ := within_of_optimizeMethods hp hl hw ho
    exact hinlines.toFramed.growsBy hl hl' hw'

/-- A method that stores twice its argument, and returns that if it is not zero. -/
def sampleTwice : Program where
  vars := ⟨#[{ name := "n", type := .int, kind := .ofMethod },
    { name := "j", type := .int, kind := .ofMethod }]⟩
  methods := ⟨#[{ name := "twice", returns := .int, params := [⟨0⟩], isPure := true, body := some ⟨3⟩ }]⟩
  exprs := ⟨#[.var ⟨0⟩, .var ⟨0⟩, .binary .add ⟨0⟩ ⟨1⟩, .var ⟨1⟩, .var ⟨1⟩]⟩
  stmts := ⟨#[.declare ⟨1⟩ (some ⟨2⟩), .ret (some ⟨4⟩), .branch ⟨3⟩ ⟨1⟩ none, .block [⟨0⟩, ⟨2⟩]]⟩

/-- The sum is put in the condition and in what is returned. -/
theorem Inlining.optimize_evaluate_scaled_twice : sampleTwice.IsTree ∧
    (∀ method body, (method, body) ∈ sampleTwice.bodies → sampleTwice.AssignsVariables body) ∧
    sampleTwice.Within 5 ∧ sampleTwice.evaluate ⟨0⟩ [4] 9 = .ok (some ⟨some 8, []⟩) ∧
    ∃ o, optimize .declared { bound := 50 } Fuel.infinite sampleTwice = .ok o ∧
      o.fuel.consumed = 2 ∧ sampleTwice.GrowsBy o.program 20 ∧
      o.program.evaluate ⟨0⟩ [4] 180 = .ok (some ⟨some 8, []⟩) := by
  have htree : sampleTwice.IsTree :=
    Program.isTree_of_check (show sampleTwice.checksAsTree 8 = true by decide)
  have hvars : ∀ method body, (method, body) ∈ sampleTwice.bodies →
      sampleTwice.AssignsVariables body := by
    intro method body _ e x _ hx t ht
    have htargets : ∀ x ∈ sampleTwice.exprs.items.toList, x.targets = [] := by decide
    rw [htargets x (Array.mem_toList_iff.2 (Array.mem_of_getElem? hx))] at ht
    cases ht
  obtain ⟨ls, le, hl⟩ := htree.isForest.exists_lists
  have hwithin : sampleTwice.Within 5 := hl.within_size
  have heval : sampleTwice.evaluate ⟨0⟩ [4] 9 = .ok (some ⟨some 8, []⟩) := by decide +kernel
  have hconsumed : (optimize .declared { bound := 50 } Fuel.infinite sampleTwice).map
      (·.fuel.consumed) = .ok 2 := by decide +kernel
  refine ⟨htree, hvars, hwithin, heval, ?_⟩
  cases ho : optimize .declared { bound := 50 } Fuel.infinite sampleTwice with
  | error fault =>
    rw [ho] at hconsumed
    cases hconsumed
  | ok o =>
    rw [ho] at hconsumed
    have hconsumed : o.fuel.consumed = 2 := Except.ok.inj hconsumed
    obtain ⟨hscaled, hgrows⟩ := optimize_evaluate_scaled htree hvars ho
    have hgrows : sampleTwice.GrowsBy o.program 20 := by
      have := hgrows 5 hwithin
      rwa [hconsumed] at this
    exact ⟨o, rfl, hconsumed, hgrows, hscaled 20 (by decide) hgrows ⟨0⟩ [4] 9 _ heval⟩

end Dataflow
